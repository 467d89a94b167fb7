import TlsClient.Proofs.Wire.Framing
import TlsClient.Wire.Repetition

/-!
Lists on the wire. A repetition reads the longest run of items from the front of its input: it stops
where no further item is read, and fails where one is read that takes nothing or has no place. What it
answers is settled by the run and by what the item does behind it: `many0_eq_iff`. Main statement:
`repetitions_read_runs`.

If a parser accepts exactly the written forms of its items, then a repetition takes off the items that
fit into the places, written one after the other, and leaves what the parser fails on:
`many0_eq_ok_iff_append`. Repeating it over a whole byte string accepts these items and nothing else:
`many0_eq_ok_iff`. No item is dropped and no byte between two of them is passed over.
-/

namespace TlsClient.Wire.Parser

variable {α : Type} {item : Parser α} {places : Nat} {bs rest left : Bytes} {a : α} {as : List α}

/-- A repetition ends where an item is not accepted and the failure is not fatal. -/
def EndsAt (item : Parser α) (bs : Bytes) : Prop := ∃ code, item bs = .error (.recoverable code)

/-! ### Runs of items -/

/-- What the item leaves is the end of what it was given. -/
def LeavesSuffix (item : Parser α) : Prop :=
  ∀ ⦃bs rest : Bytes⦄ ⦃a : α⦄, item bs = .ok (a, rest) → rest <:+ bs

/-- Items that are read one after the other, each of which takes something, and what they leave. -/
inductive Run (item : Parser α) : Bytes → List α → Bytes → Prop where
  | stop (bs : Bytes) : Run item bs [] bs
  | next {bs rest left : Bytes} {a : α} {as : List α} (hitem : item bs = .ok (a, rest))
      (hrest : rest ≠ bs) (hmore : Run item rest as left) : Run item bs (a :: as) left

/-- What a repetition answers that has read `as` and has come to `left`. -/
inductive Answers (item : Parser α) (places : Nat) (as : List α) (left : Bytes) :
    Except Failure (List α × Bytes) → Prop where
  | ended {code : Code} (hitem : item left = .error (.recoverable code)) :
      Answers item places as left (.ok (as, left))
  | failed {e : Failure} (hitem : item left = .error e) (he : ∀ code, e ≠ .recoverable code) :
      Answers item places as left (.error e)
  /-- The item takes nothing, so it would be read for ever. -/
  | idle {a : α} (hitem : item left = .ok (a, left)) :
      Answers item places as left (.error (.recoverable .many0))
  /-- There is one more item, and no place for it. -/
  | full {a : α} {rest : Bytes} (hitem : item left = .ok (a, rest)) (hrest : rest ≠ left)
      (hplaces : as.length = places) : Answers item places as left (.error (.fatal .tooLarge))

theorem LeavesSuffix.length_ne (hsuffix : LeavesSuffix item) (hitem : item bs = .ok (a, rest))
    (hrest : rest ≠ bs) : rest.length ≠ bs.length :=
  fun h => hrest ((hsuffix hitem).eq_of_length h)

/-- Every item of a run takes a byte at least. -/
theorem Run.length_le (hsuffix : LeavesSuffix item) (h : Run item bs as left) :
    as.length + left.length ≤ bs.length := by
  induction h with
  | stop bs => exact Nat.le_of_eq (Nat.zero_add bs.length)
  | @next bs rest left a as hitem hrest hmore ih =>
    have hle : rest.length ≤ bs.length := (hsuffix hitem).length_le
    have hne : rest.length ≠ bs.length := hsuffix.length_ne hitem hrest
    rw [List.length_cons]
    omega

/-- A repetition takes an item off and goes on with one place less. -/
theorem many0_of_item (hsuffix : LeavesSuffix item) (hitem : item bs = .ok (a, rest))
    (hrest : rest ≠ bs) :
    many0 item (places + 1) bs =
      match many0 item places rest with
      | .ok (as, left) => .ok (a :: as, left)
      | .error e => .error e := by
  -- A repetition compares lengths to see if an item has taken something.
  have hne : rest.length ≠ bs.length := hsuffix.length_ne hitem hrest
  rw [many0]
  dsimp only
  rw [hitem]
  dsimp only
  exact (if_neg hne).trans rfl

/-- At the end of its run a repetition answers, also if there is no item in it. -/
theorem many0_of_answers {r : Except Failure (List α × Bytes)} (hsuffix : LeavesSuffix item)
    (h : Answers item places [] bs r) : many0 item places bs = r := by
  cases h with
  | ended hitem => cases places <;> simp only [many0, hitem]
  | failed hitem he =>
    rename_i e
    cases e with
    | recoverable code => exact absurd rfl (he code)
    | fatal code => cases places <;> simp only [many0, hitem]
    | incomplete => cases places <;> simp only [many0, hitem]
  | idle hitem => cases places <;> simp only [many0, hitem, if_true]
  | full hitem hrest hplaces =>
    rename_i rest
    subst hplaces
    have hne : rest.length ≠ bs.length := hsuffix.length_ne hitem hrest
    simp only [List.length_nil, many0, hitem, if_neg hne]

/-- The loop goes along the run and answers what there is to say behind it. -/
theorem many0_of_run {r : Except Failure (List α × Bytes)} (hsuffix : LeavesSuffix item)
    (h : Run item bs as left) (hplaces : as.length ≤ places)
    (hr : Answers item places as left r) : many0 item places bs = r := by
  -- Along the run, with one place less for each item; only an answer of items grows on the way back.
  induction h generalizing places r with
  | stop bs => exact many0_of_answers hsuffix hr
  | next hitem hrest _ ih =>
    cases places with
    | zero => cases hplaces
    | succ places =>
      have hmore := Nat.le_of_succ_le_succ hplaces
      rw [many0_of_item hsuffix hitem hrest]
      cases hr with
      | ended hend => rw [ih hmore (.ended hend)]
      | failed hend he => rw [ih hmore (.failed hend he)]
      | idle hend => rw [ih hmore (.idle hend)]
      | full hend hne hfull => rw [ih hmore (.full hend hne (Nat.succ.inj hfull))]

/-- There is a run in front of every input that fills the places or cannot be made longer. -/
theorem exists_run (item : Parser α) (places : Nat) (bs : Bytes) :
    ∃ as left, Run item bs as left ∧ as.length ≤ places ∧
      (as.length = places ∨ ∀ a rest, item left = .ok (a, rest) → rest = left) := by
  -- The run is read greedily: it goes on while there are places and the item takes something.
  induction places generalizing bs with
  | zero => exact ⟨[], bs, .stop bs, Nat.le_refl 0, .inl rfl⟩
  | succ places ih =>
    by_cases hitem : ∃ a rest, item bs = .ok (a, rest) ∧ rest ≠ bs
    · obtain ⟨a, rest, hitem, hrest⟩ := hitem
      obtain ⟨as, left, hrun, hplaces, hend⟩ := ih rest
      exact ⟨a :: as, left, .next hitem hrest hrun, Nat.succ_le_succ hplaces,
        hend.imp_left (congrArg Nat.succ)⟩
    · refine ⟨[], bs, .stop bs, Nat.zero_le _, .inr fun a rest h => ?_⟩
      by_contra hrest
      exact hitem ⟨a, rest, h, hrest⟩

/-- Behind a run that cannot go on there is always an answer. -/
theorem exists_answers (h : as.length = places ∨ ∀ a rest, item left = .ok (a, rest) → rest = left) :
    ∃ r, Answers item places as left r := by
  rcases hitem : item left with (code | code | _) | ⟨a, rest⟩
  · exact ⟨_, .ended hitem⟩
  · exact ⟨_, .failed hitem nofun⟩
  · exact ⟨_, .failed hitem nofun⟩
  · by_cases hrest : rest = left
    · exact ⟨_, .idle (hrest ▸ hitem)⟩
    · exact ⟨_, .full hitem hrest (h.resolve_right fun hend => hrest (hend a rest hitem))⟩

/-- What a repetition answers is settled by its run and by the item behind it. -/
theorem many0_eq_iff {r : Except Failure (List α × Bytes)} (hsuffix : LeavesSuffix item) :
    many0 item places bs = r ↔
      ∃ as left, Run item bs as left ∧ as.length ≤ places ∧ Answers item places as left r := by
  constructor
  · rintro rfl
    obtain ⟨as, left, hrun, hplaces, hend⟩ := exists_run item places bs
    obtain ⟨r, hr⟩ := exists_answers hend
    exact ⟨as, left, hrun, hplaces, many0_of_run hsuffix hrun hplaces hr ▸ hr⟩
  · rintro ⟨as, left, hrun, hplaces, hr⟩
    exact many0_of_run hsuffix hrun hplaces hr

theorem many0_eq_ok_iff_run (hsuffix : LeavesSuffix item) :
    many0 item places bs = .ok (as, left) ↔
      Run item bs as left ∧ as.length ≤ places ∧ EndsAt item left := by
  rw [many0_eq_iff hsuffix]
  constructor
  · rintro ⟨as, left, hrun, hplaces, ⟨hend⟩⟩
    exact ⟨hrun, hplaces, _, hend⟩
  · rintro ⟨hrun, hplaces, _, hend⟩
    exact ⟨as, left, hrun, hplaces, .ended hend⟩

/-- A repetition fails where an item does, where one takes nothing, or where there is no place for
one. -/
theorem many0_eq_error_iff {e : Failure} (hsuffix : LeavesSuffix item) :
    many0 item places bs = .error e ↔ ∃ as left, Run item bs as left ∧ as.length ≤ places ∧
      (item left = .error e ∧ (∀ code, e ≠ .recoverable code) ∨
        e = .recoverable .many0 ∧ (∃ a, item left = .ok (a, left)) ∨
        e = .fatal .tooLarge ∧ as.length = places ∧
          ∃ a rest, item left = .ok (a, rest) ∧ rest ≠ left) := by
  rw [many0_eq_iff hsuffix]
  refine exists_congr fun as => exists_congr fun left => and_congr_right' (and_congr_right' ?_)
  constructor
  · intro hr
    cases hr with
    | failed hitem he => exact .inl ⟨hitem, he⟩
    | idle hitem => exact .inr (.inl ⟨rfl, _, hitem⟩)
    | full hitem hrest hplaces => exact .inr (.inr ⟨rfl, hplaces, _, _, hitem, hrest⟩)
  · rintro (⟨hitem, he⟩ | ⟨rfl, a, hitem⟩ | ⟨rfl, hplaces, a, rest, hitem, hrest⟩)
    · exact .failed hitem he
    · exact .idle hitem
    · exact .full hitem hrest hplaces

/-- Without any item, repeating at least once fails. -/
theorem many1_of_endsAt (h : EndsAt item bs) :
    many1 item places bs = .error (.recoverable .many1) := by
  obtain ⟨code, hitem⟩ := h
  have hnone : many0 item places bs = .ok ([], bs) := by
    cases places <;> simp only [many0, hitem]
  rw [many1, hnone]

/-- If there is an item, or the first one is refused, then there is no difference. -/
theorem many1_of_not_endsAt (hsuffix : LeavesSuffix item) (h : ¬ EndsAt item bs) :
    many1 item places bs = many0 item places bs := by
  rw [many1]
  split
  · rename_i left hnone
    obtain ⟨hrun, -, hend⟩ := (many0_eq_ok_iff_run hsuffix).1 hnone
    cases hrun
    exact absurd hend h
  · rfl

/-- A repetition comes to an end: it reads a run of items, no more of them than there are places or
bytes, and answers by what the item does behind it. It returns the items of a run exactly if they have
places and what they leave is refused without being fatal. It fails with what the item fails with, or
because an item takes nothing, or because there is one item more than there are places; it has no other
way to fail. A repetition of at least one item differs from it where the first item is refused, and
nowhere else. -/
theorem repetitions_read_runs (hsuffix : LeavesSuffix item) (places : Nat) (bs : Bytes) :
    (∃ as left, Run item bs as left ∧ as.length ≤ places ∧ as.length + left.length ≤ bs.length ∧
      Answers item places as left (many0 item places bs)) ∧
    (∀ as left, many0 item places bs = .ok (as, left) ↔
      Run item bs as left ∧ as.length ≤ places ∧ EndsAt item left) ∧
    (∀ e, many0 item places bs = .error e ↔ ∃ as left, Run item bs as left ∧ as.length ≤ places ∧
      (item left = .error e ∧ (∀ code, e ≠ .recoverable code) ∨
        e = .recoverable .many0 ∧ (∃ a, item left = .ok (a, left)) ∨
        e = .fatal .tooLarge ∧ as.length = places ∧
          ∃ a rest, item left = .ok (a, rest) ∧ rest ≠ left)) ∧
    (EndsAt item bs → many1 item places bs = .error (.recoverable .many1)) ∧
    (¬ EndsAt item bs → many1 item places bs = many0 item places bs) := by
  have hanswer : many0 item places bs = many0 item places bs := rfl
  obtain ⟨as, left, hrun, hplaces, hr⟩ := (many0_eq_iff hsuffix).1 hanswer
  exact ⟨⟨as, left, hrun, hplaces, hrun.length_le hsuffix, hr⟩,
    fun _ _ => many0_eq_ok_iff_run hsuffix, fun _ => many0_eq_error_iff hsuffix, many1_of_endsAt,
    many1_of_not_endsAt hsuffix⟩

theorem leavesSuffix_word16 : LeavesSuffix word16 := by
  intro bs rest w h
  rw [word16_eq_ok_iff.1 h]
  exact List.suffix_append _ _

theorem leavesSuffix_pure (a : α) : LeavesSuffix (pure a : Parser α) := by
  intro bs rest b h
  obtain ⟨-, rfl⟩ := pure_eq_ok_iff.1 h
  exact List.suffix_refl _

/-- Two places take two numbers and leave an odd byte, and a third number is one too many. There is no
number in one byte, and what takes nothing is not repeated. -/
theorem words_repeated : LeavesSuffix word16 ∧ LeavesSuffix (pure () : Parser Unit) ∧
    many0 word16 2 [0, 1, 0, 2, 9] = .ok ([1, 2], [9]) ∧
    many0 word16 2 [0, 1, 0, 2, 0, 3] = .error (.fatal .tooLarge) ∧
    many1 word16 2 [7] = .error (.recoverable .many1) ∧
    many0 (pure () : Parser Unit) 2 [7] = .error (.recoverable .many0) := by
  have hshorter (b c : UInt8) (left : Bytes) : left ≠ b :: c :: left := by
    refine ne_of_apply_ne List.length ?_
    rw [List.length_cons, List.length_cons]
    omega
  have hword (left : Bytes) : Run word16 ([0, 1, 0, 2] ++ left) [1, 2] left :=
    .next rfl (hshorter 0 1 _) (.next rfl (hshorter 0 2 _) (.stop left))
  obtain ⟨-, hcomplete, -⟩ := repetitions_read_runs leavesSuffix_word16 2 [0, 1, 0, 2, 9]
  obtain ⟨-, -, hfull, -⟩ := repetitions_read_runs leavesSuffix_word16 2 [0, 1, 0, 2, 0, 3]
  obtain ⟨-, -, -, hnone, -⟩ := repetitions_read_runs leavesSuffix_word16 2 [7]
  obtain ⟨-, -, hidle, -⟩ := repetitions_read_runs (leavesSuffix_pure ()) 2 [7]
  refine ⟨leavesSuffix_word16, leavesSuffix_pure (), ?_, ?_, hnone ⟨.eof, rfl⟩, ?_⟩
  · exact (hcomplete _ _).2 ⟨hword [9], Nat.le_refl 2, .eof, rfl⟩
  · exact (hfull _).2 ⟨[1, 2], [0, 3], hword [0, 3], Nat.le_refl 2,
      .inr (.inr ⟨rfl, rfl, 3, [], rfl, by simp⟩)⟩
  · exact (hidle _).2 ⟨[], [7], .stop _, Nat.zero_le 2, .inr (.inl ⟨rfl, (), rfl⟩)⟩

/-! ### Items with a written form -/

variable {write : α → Bytes} {P : α → Prop}

/-- The parser accepts the written forms of the items with `P` and nothing else. At the end of its
input it fails in a way that ends a repetition. -/
structure Codec (item : Parser α) (write : α → Bytes) (P : α → Prop) : Prop where
  eq_ok_iff : ∀ {input rest : Bytes} {a : α},
    item input = .ok (a, rest) ↔ P a ∧ input = write a ++ rest
  write_ne_nil : ∀ a, write a ≠ []
  nil : item [] = .error (.recoverable .eof)

namespace Codec

theorem leavesSuffix (h : Codec item write P) : LeavesSuffix item := by
  intro bs rest a hitem
  rw [(h.eq_ok_iff.1 hitem).2]
  exact List.suffix_append _ _

/-- What a run has read is its items and nothing else. -/
theorem eq_append_of_run (h : Codec item write P) (hrun : Run item bs as left) :
    (∀ a ∈ as, P a) ∧ bs = as.flatMap write ++ left := by
  induction hrun with
  | stop bs => exact ⟨fun a ha => absurd ha List.not_mem_nil, rfl⟩
  | next hitem _ _ ih =>
    obtain ⟨ha, rfl⟩ := h.eq_ok_iff.1 hitem
    obtain ⟨hall, rfl⟩ := ih
    refine ⟨List.forall_mem_cons.2 ⟨ha, hall⟩, ?_⟩
    rw [List.flatMap_cons, List.append_assoc]

/-- Reading an item gets on, so the written items are a run. -/
theorem run_flatMap_append (h : Codec item write P) (hall : ∀ a ∈ as, P a) (left : Bytes) :
    Run item (as.flatMap write ++ left) as left := by
  induction as with
  | nil => exact .stop left
  | cons a as ih =>
    obtain ⟨ha, has⟩ := List.forall_mem_cons.1 hall
    rw [List.flatMap_cons, List.append_assoc]
    refine .next (h.eq_ok_iff.2 ⟨ha, rfl⟩) ?_ (ih has)
    exact fun heq => h.write_ne_nil a (List.self_eq_append_left.1 heq)

/-- The runs of items with a written form are these forms one after the other. -/
theorem run_iff (h : Codec item write P) :
    Run item bs as left ↔ (∀ a ∈ as, P a) ∧ bs = as.flatMap write ++ left := by
  refine ⟨h.eq_append_of_run, ?_⟩
  rintro ⟨hall, rfl⟩
  exact h.run_flatMap_append hall left

/-- Items with a written form are read up to where none stands. -/
theorem many0_eq_ok_iff_append (h : Codec item write P) :
    many0 item places bs = .ok (as, left) ↔
      as.length ≤ places ∧ (∀ a ∈ as, P a) ∧ bs = as.flatMap write ++ left ∧ EndsAt item left := by
  rw [many0_eq_ok_iff_run h.leavesSuffix, h.run_iff, and_left_comm, and_assoc]

/-- Over a whole string they are read exactly as they are written. -/
theorem many0_eq_ok_iff (h : Codec item write P) :
    many0 item places bs = .ok (as, []) ↔
      as.length ≤ places ∧ (∀ a ∈ as, P a) ∧ bs = as.flatMap write := by
  have hend : EndsAt item [] := ⟨.eof, h.nil⟩
  rw [h.many0_eq_ok_iff_append, List.append_nil, and_iff_left hend]

/-- A repetition of at least one item is one that finds an item. -/
theorem many1_eq_ok_iff (h : Codec item write P) :
    many1 item places bs = .ok (as, []) ↔
      as ≠ [] ∧ as.length ≤ places ∧ (∀ a ∈ as, P a) ∧ bs = as.flatMap write := by
  rw [← h.many0_eq_ok_iff, many1]
  constructor
  · intro hm
    split at hm
    · cases hm
    · rename_i hnone
      refine ⟨?_, hm⟩
      rintro rfl
      exact hnone [] hm
  · rintro ⟨hne, hm⟩
    rw [hm]
    split
    · rename_i heq
      exact absurd (Prod.mk.inj (Except.ok.inj heq)).1 hne
    · rfl

end Codec
end TlsClient.Wire.Parser
