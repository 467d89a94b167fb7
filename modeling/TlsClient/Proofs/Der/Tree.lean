import Mathlib.Data.List.Forall2
import TlsClient.Proofs.Der.Encoding

/-!
Trees of DER values. A tree can be written in several ways, since every length in it has more than one
form; `Tree.HeldBy` says which values hold a tree, whatever the forms are. Reading the values inside a
value, those inside them and so on finds a tree if and only if the value holds it (`tree_eq_ok_iff`).
Main statement: `trees_read`.
-/

namespace TlsClient.Der

abbrev Code (constructed : Bool) : Type :=
  { code : UInt8 // (code &&& 0x20 ≠ 0 : Bool) = constructed }

/-- Values without the forms of their lengths. -/
inductive Tree
  | leaf (code : Code false) (content : Bytes)
  | node (code : Code true) (children : List Tree)

namespace Tree

/-- What holds of a node whenever it holds of the children holds of every tree. -/
@[elab_as_elim, induction_eliminator]
theorem induct {motive : Tree → Prop} (leaf : ∀ code content, motive (.leaf code content))
    (node : ∀ code ts, (∀ t ∈ ts, motive t) → motive (.node code ts)) (t : Tree) : motive t :=
  match t with
  | .leaf code content => leaf code content
  | .node code ts => node code ts fun t _ => induct leaf node t

/-- A value holds a leaf as its content, and the children of a node as a row of values that hold
them. -/
inductive HeldBy : Tree → Value → Prop
  | leaf (code : Code false) (content : Bytes) : HeldBy (.leaf code content) ⟨code, content⟩
  | node (code : Code true) {ts : List Tree} {vs : List Value} {content : Bytes}
    (children : List.Forall₂ HeldBy ts vs) (row : Value.Row vs content) :
    HeldBy (.node code ts) ⟨code, content⟩

theorem heldBy_leaf_iff {code : Code false} {content : Bytes} {v : Value} :
    (leaf code content).HeldBy v ↔ v = ⟨code, content⟩ := by
  constructor
  · rintro ⟨⟩
    rfl
  · rintro rfl
    exact .leaf code content

/-- A node is held by a value whose content is a row of values for its children. -/
theorem heldBy_node_iff {code : Code true} {ts : List Tree} {v : Value} :
    (node code ts).HeldBy v ↔
      v.code = code ∧ ∃ vs, List.Forall₂ HeldBy ts vs ∧ Value.Row vs v.content := by
  constructor
  · intro h
    cases h with
    | node code children row => exact ⟨rfl, _, children, row⟩
  · obtain ⟨_, content⟩ := v
    rintro ⟨rfl, vs, children, row⟩
    exact .node code children row

/-! ### Writing a tree -/

def code : Tree → UInt8
  | .leaf code _ => code
  | .node code _ => code

mutual

def content : Tree → Bytes
  | .leaf _ content => content
  | .node _ ts => contents ts

def contents : List Tree → Bytes
  | [] => []
  | t :: ts => Value.toBytes ⟨t.code, t.content⟩ ++ contents ts

end

def value (t : Tree) : Value :=
  ⟨t.code, t.content⟩

theorem contents_eq (ts : List Tree) : contents ts = (ts.map value).flatMap Value.toBytes := by
  induction ts with
  | nil => rfl
  | cons t ts ih => rw [contents, ih, List.map_cons, List.flatMap_cons, value]

inductive Writable : Tree → Prop
  | leaf {code : Code false} {content : Bytes} (root : (leaf code content).value.Writable) :
    Writable (.leaf code content)
  | node {code : Code true} {ts : List Tree} (root : (node code ts).value.Writable)
    (children : ∀ t ∈ ts, Writable t) : Writable (.node code ts)

theorem Writable.value {t : Tree} (h : t.Writable) : t.value.Writable := by
  cases h with
  | leaf root => exact root
  | node root _ => exact root

/-- The value with the shortest lengths is one that holds the tree. -/
theorem Writable.heldBy {t : Tree} (h : t.Writable) : t.HeldBy t.value := by
  induction t with
  | leaf code content => exact .leaf code content
  | node code ts ih =>
    cases h with
    | node root children =>
      -- The values of the children are a row, each in its shortest encoding.
      have hheld : List.Forall₂ HeldBy ts (ts.map Tree.value) := by
        rw [List.forall₂_map_right_iff, List.forall₂_same]
        exact fun t ht => ih t ht (children t ht)
      have hrow : Value.Row (ts.map Tree.value) (contents ts) := by
        rw [contents_eq]
        refine Value.row_flatMap fun v hv => ?_
        obtain ⟨t, ht, rfl⟩ := List.mem_map.1 hv
        exact (children t ht).value
      exact .node code hheld hrow

end Tree

namespace Value

/-! ### The values in a row -/

/-- The next of the values in a row, and what follows it. Nothing follows a malformed one. -/
def next? (bs : Bytes) : Option (Except Error Value × Bytes) :=
  if bs.isEmpty then none
  else
    match parse bs with
    | .error e => some (.error (.ofFailure e), [])
    | .ok (v, rest) => some (.ok v, rest)

/-- What taking the next value gives, time after time until there is none. -/
inductive Yields : Bytes → List (Except Error Value) → Prop
  | done {bs : Bytes} (h : next? bs = none) : Yields bs []
  | step {bs rest : Bytes} {item : Except Error Value} {others : List (Except Error Value)}
    (h : next? bs = some (item, rest)) (hothers : Yields rest others) : Yields bs (item :: others)

theorem EncodedAs.length_le {v : Value} {bs : Bytes} (h : v.EncodedAs bs) :
    v.content.length + 2 ≤ bs.length := by
  obtain ⟨-, length, hlength, rfl⟩ := h
  have hpos : 0 < length.length := by
    cases hlength <;> exact Nat.succ_pos _
  rw [List.length_cons, List.length_append]
  omega

/-- Taking the next value makes progress, and a malformed one uses up all that is left. -/
theorem length_lt_of_next? {bs rest : Bytes} {item : Except Error Value}
    (h : next? bs = some (item, rest)) : rest.length < bs.length := by
  rw [next?] at h
  split at h
  · cases h
  · rename_i hne
    split at h <;> cases h
    · exact List.length_pos_iff.2 (mt List.isEmpty_iff.2 hne)
    · exact length_lt_of_parse ‹_›

/-- Taking values off a row one by one gives what reading it as a whole gives. -/
theorem yields_items (bs : Bytes) : Yields bs (items bs) := by
  fun_induction items bs with
  | case1 bs hempty => exact .done (if_pos hempty)
  | case2 bs hne e hparse =>
    have hnext : next? bs = some (.error (.ofFailure e), []) := by
      rw [next?, if_neg hne, hparse]
    exact .step hnext (.done rfl)
  | case3 bs hne v rest hparse ih =>
    have hnext : next? bs = some (.ok v, rest) := by
      rw [next?, if_neg hne, hparse]
    exact .step hnext ih

/-- A value takes two bytes at least, and a malformed one, which is the last, takes one. -/
theorem length_items_le (bs : Bytes) : 2 * (items bs).length ≤ bs.length + 1 := by
  fun_induction items bs with
  | case1 bs hempty => exact Nat.zero_le _
  | case2 bs hne e hparse =>
    have hpos : 0 < bs.length := List.length_pos_iff.2 (mt List.isEmpty_iff.2 hne)
    rw [List.length_singleton]
    omega
  | case3 bs hne v rest hparse ih =>
    obtain ⟨encoding, hencoding, rfl⟩ := parse_eq_ok_iff.1 hparse
    have := hencoding.length_le
    rw [List.length_cons, List.length_append]
    omega

/-- A value in a row is shorter than the row, so reading inside of it ends. -/
theorem Row.length_le_of_mem {vs : List Value} {bs : Bytes} (h : Row vs bs) {w : Value} (hw : w ∈ vs) :
    w.content.length + 2 ≤ bs.length := by
  induction h with
  | nil => cases hw
  | cons first others ih =>
    rw [List.length_append]
    rcases List.mem_cons.1 hw with rfl | hw
    · exact Nat.le_add_right_of_le first.length_le
    · exact Nat.le_add_left_of_le (ih hw)

theorem isConstructed_of_code {v : Value} {code : Code true} (h : v.code = code) :
    v.isConstructed = true := by
  rw [isConstructed, h]
  exact code.property

/-- A value that is not constructed has no children, whatever its content looks like. -/
theorem children_of_not_isConstructed {v : Value} (h : ¬ v.isConstructed = true) :
    v.children = .ok [] := by
  rw [children, childItems, if_neg h]
  rfl

/-- The content of a value inside is at least two bytes shorter than the content around it. -/
theorem length_le_of_mem_children {v w : Value} {vs : List Value} (h : v.children = .ok vs)
    (hw : w ∈ vs) : w.content.length + 2 ≤ v.content.length := by
  by_cases hv : v.isConstructed = true
  · exact ((children_eq_ok_iff hv).1 h).length_le_of_mem hw
  · cases h.symm.trans (children_of_not_isConstructed hv)
    cases hw

/-! ### Reading a tree -/

/-- What reading the values inside a value, those inside them and so on finds. -/
def tree (v : Value) : Except Error Tree :=
  if h : v.isConstructed = true then
    match _ : v.children with
    | .error e => .error e
    | .ok vs =>
      -- That a value is inside goes along with it, since its content is shorter for that reason.
      ((vs.attach.map fun (w : {w // w ∈ vs}) => w.val.tree).mapM id).map (.node ⟨v.code, h⟩)
  else .ok (.leaf ⟨v.code, Bool.eq_false_iff.2 h⟩ v.content)
termination_by v.content.length
decreasing_by
  rename_i hchildren
  have := length_le_of_mem_children hchildren w.property
  omega

theorem tree_of_constructed {v : Value} (h : v.isConstructed = true) :
    v.tree = do
      let vs ← v.children
      let ts ← (vs.map tree).mapM id
      return .node ⟨v.code, h⟩ ts := by
  rw [tree, dif_pos h]
  split <;> rename_i hchildren <;> rw [hchildren]
  · rfl
  · rw [List.attach_map_val (f := tree)]
    rfl

theorem tree_of_primitive {v : Value} (h : v.isConstructed = false) :
    v.tree = .ok (.leaf ⟨v.code, h⟩ v.content) := by
  rw [tree, dif_neg (Bool.eq_false_iff.1 h)]

theorem tree_eq_leaf_iff {v : Value} {code : Code false} {content : Bytes} :
    v.tree = .ok (.leaf code content) ↔ v = ⟨code, content⟩ := by
  constructor
  · intro h
    cases hv : v.isConstructed with
    | false =>
      rw [tree_of_primitive hv] at h
      cases h
      rfl
    | true =>
      -- A constructed value is a node, whatever is inside it.
      rw [tree_of_constructed hv, except_bind_eq_ok_iff] at h
      obtain ⟨vs, -, h⟩ := h
      obtain ⟨ts, -, h⟩ := except_bind_eq_ok_iff.1 h
      cases h
  · rintro rfl
    exact tree_of_primitive (v := ⟨code, content⟩) code.property

/-- The tree of a constructed value is a node of the trees of its children, none of them left out.
-/
theorem tree_eq_node_iff {v : Value} {code : Code true} {ts : List Tree} :
    v.tree = .ok (.node code ts) ↔
      v.code = code ∧ ∃ vs, v.children = .ok vs ∧ vs.map tree = ts.map .ok := by
  constructor
  · intro h
    cases hv : v.isConstructed with
    | false =>
      rw [tree_of_primitive hv] at h
      cases h
    | true =>
      rw [tree_of_constructed hv, except_bind_eq_ok_iff] at h
      obtain ⟨vs, hvs, h⟩ := h
      obtain ⟨ts, hts, h⟩ := except_bind_eq_ok_iff.1 h
      cases h
      exact ⟨rfl, vs, hvs, mapM_id_eq_ok_iff.1 hts⟩
  · obtain ⟨_, hv⟩ := code
    rintro ⟨rfl, vs, hvs, hts⟩
    rw [tree_of_constructed hv, except_bind_eq_ok_iff]
    exact ⟨vs, hvs, except_bind_eq_ok_iff.2 ⟨ts, mapM_id_eq_ok_iff.2 hts, rfl⟩⟩

/-- If reading finds these trees in exactly the values that hold them, then it finds a list of them in
exactly the lists of values that hold them one by one. -/
theorem map_tree_eq_iff {ts : List Tree} {vs : List Value}
    (h : ∀ t ∈ ts, ∀ v : Value, v.tree = .ok t ↔ t.HeldBy v) :
    vs.map tree = ts.map .ok ↔ List.Forall₂ Tree.HeldBy ts vs := by
  induction ts generalizing vs with
  | nil => rw [List.map_nil, List.map_eq_nil_iff, List.forall₂_nil_left_iff]
  | cons t ts ih =>
    obtain ⟨hfirst, hothers⟩ := List.forall_mem_cons.1 h
    cases vs with
    | nil => simp
    | cons v vs =>
      rw [List.map_cons, List.map_cons, List.cons.injEq, List.forall₂_cons, hfirst, ih hothers]

/-- Reading finds a tree in exactly the values that hold it. -/
theorem tree_eq_ok_iff {v : Value} {t : Tree} : v.tree = .ok t ↔ t.HeldBy v := by
  -- The reading goes down the values as the induction goes down the tree, one level at a time.
  induction t generalizing v with
  | leaf code content => rw [tree_eq_leaf_iff, Tree.heldBy_leaf_iff]
  | node code ts ih =>
    rw [tree_eq_node_iff, Tree.heldBy_node_iff]
    refine and_congr_right fun hcode => exists_congr fun vs => ?_
    rw [children_eq_ok_iff (isConstructed_of_code hcode), map_tree_eq_iff fun t ht v => ih t ht,
      and_comm]

end Value

open Value

/-- Every tree whose tags and lengths can be written is held by a value that has an encoding. However
the lengths in it are written, reading such an encoding gives the root and leaves what follows, and
reading on from there gives the tree. At every node the values inside are those of the children, and
whenever values are read inside a constructed one, their encodings fill its content. Taking a value off
a row makes progress, so that every row is read to its end in a number of steps that its length bounds;
and each content inside is shorter than the one around it. -/
theorem trees_read :
    (∀ t : Tree, t.Writable → t.HeldBy t.value ∧ t.value.EncodedAs t.value.toBytes) ∧
    (∀ (t : Tree) (v : Value) (bs rest : Bytes), t.HeldBy v → v.EncodedAs bs →
      parse (bs ++ rest) = .ok (v, rest) ∧ v.tree = .ok t) ∧
    (∀ (code : Code false) (content : Bytes) (v : Value), (Tree.leaf code content).HeldBy v →
      v = ⟨code, content⟩ ∧ v.children = .ok []) ∧
    (∀ (code : Code true) (ts : List Tree) (v : Value), (Tree.node code ts).HeldBy v →
      v.code = code ∧ ∃ vs, v.children = .ok vs ∧ List.Forall₂ Tree.HeldBy ts vs) ∧
    (∀ (v : Value) (t : Tree), v.tree = .ok t → t.HeldBy v) ∧
    (∀ (v : Value) (vs : List Value), v.isConstructed = true → v.children = .ok vs →
      Row vs v.content) ∧
    (∀ (bs rest : Bytes) (item : Except Error Value), next? bs = some (item, rest) →
      rest.length < bs.length) ∧
    (∀ bs : Bytes, Yields bs (items bs) ∧ 2 * (items bs).length ≤ bs.length + 1) ∧
    (∀ (v w : Value) (vs : List Value), v.children = .ok vs → w ∈ vs →
      w.content.length + 2 ≤ v.content.length) := by
  refine ⟨fun t h => ⟨h.heldBy, h.value.encodedAs⟩, fun t v bs rest ht hv => ⟨?_, ?_⟩,
    fun code content v h => ?_, fun code ts v h => ?_, fun v t => tree_eq_ok_iff.1,
    fun v vs hv => (children_eq_ok_iff hv).1, fun bs rest item => length_lt_of_next?,
    fun bs => ⟨yields_items bs, length_items_le bs⟩, fun v w vs => length_le_of_mem_children⟩
  · exact parse_eq_ok_iff.2 ⟨bs, hv, rfl⟩
  · exact tree_eq_ok_iff.2 ht
  · obtain rfl := Tree.heldBy_leaf_iff.1 h
    exact ⟨rfl, children_of_not_isConstructed (Bool.eq_false_iff.1 code.property)⟩
  · obtain ⟨hcode, vs, hvs, hrow⟩ := Tree.heldBy_node_iff.1 h
    exact ⟨hcode, vs, (children_eq_ok_iff (isConstructed_of_code hcode)).2 hrow, hvs⟩

def sampleTree : Tree :=
  .node ⟨0x30, rfl⟩ [.leaf ⟨0x02, rfl⟩ [0x05], .leaf ⟨0x05, rfl⟩ [],
    .node ⟨0xa0, rfl⟩ [.leaf ⟨0x02, rfl⟩ [0x02]]]

def sampleValue : Value :=
  ⟨0x30, [0x02, 0x01, 0x05, 0x05, 0x00, 0xa0, 0x81, 0x03, 0x02, 0x01, 0x02]⟩

/-- The tree is read in spite of the longer length, with three values inside the root, and the tree that
is written with the shortest lengths is read as well. -/
theorem sampleTree_read :
    parse ([0x30, 0x0b] ++ sampleValue.content ++ [0xff]) = .ok (sampleValue, [0xff]) ∧
    sampleValue.tree = .ok sampleTree ∧
    (∃ vs, sampleValue.children = .ok vs ∧ vs.length = 3 ∧ Row vs sampleValue.content ∧
      ∀ w ∈ vs, w.content.length + 2 ≤ 11) ∧
    sampleTree.value.tree = .ok sampleTree := by
  obtain ⟨hwritten, hread, -, hchildren, -, hrow, -, -, hshorter⟩ := trees_read
  have hshort {code : UInt8} {content : Bytes} (hlow : code &&& 0x1F ≠ 0x1F)
      (h : content.length < 0x80) :
      EncodedAs ⟨code, content⟩ (code :: ([UInt8.ofNat content.length] ++ content)) :=
    ⟨hlow, _, .short h, rfl⟩
  have hlong : EncodedAs ⟨0xa0, [0x02, 0x01, 0x02]⟩ [0xa0, 0x81, 0x03, 0x02, 0x01, 0x02] :=
    ⟨by decide, _, @IsLength.long 3 1 (by decide) (by decide) (by decide), rfl⟩
  have hinner : Tree.HeldBy (.node ⟨0xa0, rfl⟩ [.leaf ⟨0x02, rfl⟩ [0x02]])
      ⟨0xa0, [0x02, 0x01, 0x02]⟩ :=
    .node _ (.cons (.leaf _ _) .nil) (.cons (hshort (by decide) (by decide)) .nil)
  have hheld : sampleTree.HeldBy sampleValue :=
    .node _ (.cons (.leaf _ _) (.cons (.leaf _ _) (.cons hinner .nil)))
      (.cons (hshort (by decide) (by decide)) (.cons (hshort (by decide) (by decide))
        (.cons hlong .nil)))
  have hwritable : sampleTree.Writable := by
    refine .node ⟨by decide, by decide⟩ ?_
    simp only [List.forall_mem_cons]
    refine ⟨.leaf ⟨by decide, by decide⟩, .leaf ⟨by decide, by decide⟩, .node ⟨by decide, by decide⟩ ?_,
      nofun⟩
    simp only [List.forall_mem_singleton]
    exact .leaf ⟨by decide, by decide⟩
  obtain ⟨hparse, htree⟩ := hread _ _ _ [0xff] hheld (hshort (by decide) (by decide))
  obtain ⟨-, vs, hvs, hall⟩ := hchildren _ _ _ hheld
  refine ⟨hparse, htree, ⟨vs, hvs, hall.length_eq.symm, hrow _ _ rfl hvs,
    fun w => hshorter _ w vs hvs⟩, ?_⟩
  exact (hread _ _ _ [] (hwritten _ hwritable).1 (hwritten _ hwritable).2).2

end TlsClient.Der
