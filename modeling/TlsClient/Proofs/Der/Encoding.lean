import Mathlib.Data.Nat.Size
import TlsClient.Der.Value
import TlsClient.Proofs.Wire.Framing

/-!
How DER values are written. A length has a short and a long form, and the reader takes either: what it
reads off the front of a byte string is one of the encodings of a value (`parse_eq_ok_iff`), and what
it finds in a constructed value is a row of encodings that fill the content (`items_eq_map_ok_iff`).
The encoding with the shortest length is `toBytes`.
-/

namespace TlsClient

open Wire.Parser

theorem except_bind_eq_ok_iff {ε α β : Type} {x : Except ε α} {f : α → Except ε β} {b : β} :
    (x >>= f) = .ok b ↔ ∃ a, x = .ok a ∧ f a = .ok b := by
  cases x with
  | ok a =>
    constructor
    · exact fun h => ⟨a, rfl, h⟩
    · rintro ⟨_, ha, h⟩
      cases ha
      exact h
  | error e =>
    constructor
    · exact nofun
    · rintro ⟨_, ha, -⟩
      cases ha

theorem mapM_id_eq_ok_iff {ε α : Type} {xs : List (Except ε α)} {as : List α} :
    xs.mapM id = .ok as ↔ xs = as.map .ok := by
  induction xs generalizing as with
  | nil => cases as <;> simp [pure, Except.pure]
  | cons x xs ih =>
    rw [List.mapM_cons]
    cases x with
    | error e => cases as <;> simp [bind, Except.bind]
    | ok a =>
      cases as with
      | nil => cases xs.mapM id <;> simp [bind, Except.bind, pure, Except.pure]
      | cons b bs =>
        rw [List.map_cons, List.cons.injEq, ← ih]
        cases xs.mapM id <;> simp [bind, Except.bind, pure, Except.pure]

namespace Der

/-- Whether a byte string is a length: in one byte below 128, or behind the number of its bytes, which
is one to four. -/
inductive IsLength (n : Nat) : Bytes → Prop
  | short (h : n < 0x80) : IsLength n [UInt8.ofNat n]
  | long {count : Nat} (hpos : 1 ≤ count) (hle : count ≤ 4) (h : n < 256 ^ count) :
    IsLength n (UInt8.ofNat (0x80 + count) :: Bytes.ofNat count n)

def lengthBytes (n : Nat) : Bytes :=
  if n < 0x80 then [UInt8.ofNat n]
  else
    let count := (Nat.size n + 7) / 8
    UInt8.ofNat (0x80 + count) :: Bytes.ofNat count n

theorem isLength_lengthBytes {n : Nat} (h : n < 2 ^ 32) : IsLength n (lengthBytes n) := by
  unfold lengthBytes
  split
  · exact .short ‹_›
  · rename_i hlong
    have hpos : 0 < Nat.size n := Nat.size_pos.2 (by omega)
    have hle : Nat.size n ≤ 32 := Nat.size_le.2 h
    refine .long (by omega) (by omega) ?_
    calc
      n < 2 ^ Nat.size n := Nat.lt_size_self n
      _ ≤ 2 ^ (8 * ((Nat.size n + 7) / 8)) := Nat.pow_le_pow_right (by decide) (by omega)
      _ = 256 ^ ((Nat.size n + 7) / 8) := by rw [Nat.pow_mul]

namespace Value

theorem parseLength_eq_ok_iff {input rest : Bytes} {n : Nat} :
    parseLength input = .ok (n, rest) ↔ ∃ length, IsLength n length ∧ input = length ++ rest := by
  rw [parseLength, bind_eq_ok_iff]
  constructor
  · rintro ⟨first, between, hfirst, h⟩
    obtain rfl := byte_eq_ok_iff.1 hfirst
    split at h
    · rename_i hshort
      obtain ⟨rfl, rfl⟩ := pure_eq_ok_iff.1 h
      refine ⟨_, .short (UInt8.lt_iff_toNat_lt.1 hshort), ?_⟩
      rw [UInt8.ofNat_toNat]
      rfl
    · rename_i hlong
      have hfirst : 0x80 ≤ first.toNat := by
        rwa [UInt8.lt_iff_toNat_lt, Nat.not_lt] at hlong
      dsimp only at h
      split at h
      · cases h
      · rename_i hcount
        obtain ⟨hn, hbetween⟩ := number_eq_ok_iff_append.1 h
        have hlength := IsLength.long (by omega) (by omega) hn
        rw [Nat.add_sub_cancel' hfirst, UInt8.ofNat_toNat] at hlength
        exact ⟨_, hlength, by rw [hbetween, List.cons_append]⟩
  · rintro ⟨length, hlength, rfl⟩
    cases hlength with
    | short h =>
      have hfirst : (UInt8.ofNat n).toNat = n :=
        UInt8.toNat_ofNat_of_lt' (Nat.lt_of_lt_of_le h (by decide))
      have hshort : UInt8.ofNat n < 0x80 := by
        rw [UInt8.lt_iff_toNat_lt, hfirst]
        exact h
      refine ⟨_, rest, byte_eq_ok_iff.2 rfl, ?_⟩
      rw [if_pos hshort, hfirst]
      rfl
    | @long count hpos hle h =>
      have hfirst : (UInt8.ofNat (0x80 + count)).toNat = 0x80 + count := by
        apply UInt8.toNat_ofNat_of_lt'
        rw [UInt8.size]
        omega
      have hlong : ¬ UInt8.ofNat (0x80 + count) < 0x80 := by
        rw [UInt8.lt_iff_toNat_lt, hfirst]
        exact Nat.not_lt.2 (Nat.le_add_right _ _)
      have hcount : ¬ (count = 0 ∨ count > 4) := by omega
      refine ⟨_, _, byte_eq_ok_iff.2 rfl, ?_⟩
      rw [if_neg hlong, hfirst, Nat.add_sub_cancel_left, if_neg hcount]
      exact number_eq_ok_iff_append.2 ⟨h, rfl⟩

/-! ### Values -/

/-- Whether a byte string is an encoding of the value: a tag of one byte, a length and the content. -/
def EncodedAs (v : Value) (bs : Bytes) : Prop :=
  v.code &&& 0x1F ≠ 0x1F ∧
    ∃ length, IsLength v.content.length length ∧ bs = v.code :: (length ++ v.content)

theorem EncodedAs.ne_nil {v : Value} {bs : Bytes} (h : v.EncodedAs bs) : bs ≠ [] := by
  obtain ⟨-, length, -, rfl⟩ := h
  exact List.cons_ne_nil _ _

/-- What is read off the front of a byte string is an encoding of the value, in any of its forms. -/
theorem parse_eq_ok_iff {input rest : Bytes} {v : Value} :
    parse input = .ok (v, rest) ↔ ∃ encoding, v.EncodedAs encoding ∧ input = encoding ++ rest := by
  rw [parse, bind_eq_ok_iff]
  constructor
  · rintro ⟨code, afterCode, hcode, h⟩
    obtain rfl := byte_eq_ok_iff.1 hcode
    split at h
    · cases h
    · rename_i hlow
      obtain ⟨n, afterLength, hlength, h⟩ := bind_eq_ok_iff.1 h
      obtain ⟨content, _, hcontent, hv⟩ := bind_eq_ok_iff.1 h
      obtain ⟨rfl, rfl⟩ := pure_eq_ok_iff.1 hv
      obtain ⟨length, hform, rfl⟩ := parseLength_eq_ok_iff.1 hlength
      obtain ⟨rfl, rfl⟩ := take_eq_ok_iff.1 hcontent
      refine ⟨_, ⟨hlow, length, hform, rfl⟩, ?_⟩
      rw [List.cons_append, List.append_assoc]
  · rintro ⟨_, ⟨hlow, length, hform, rfl⟩, rfl⟩
    refine ⟨v.code, length ++ v.content ++ rest, byte_eq_ok_iff.2 rfl, ?_⟩
    rw [if_neg hlow, bind_eq_ok_iff]
    refine ⟨_, v.content ++ rest, parseLength_eq_ok_iff.2 ⟨length, hform, List.append_assoc ..⟩, ?_⟩
    rw [bind_eq_ok_iff]
    exact ⟨v.content, rest, take_eq_ok_iff.2 ⟨rfl, rfl⟩, rfl⟩

theorem parseExact_eq_ok_iff {bs : Bytes} {v : Value} :
    parseExact bs = .ok v ↔ v.EncodedAs bs := by
  have hparse : parse bs = .ok (v, []) ↔ v.EncodedAs bs := by
    rw [parse_eq_ok_iff]
    simp only [List.append_nil, exists_eq_right']
  rw [← hparse, parseExact]
  split <;> simp_all

def Leads (v : Value) (bs : Bytes) : Prop :=
  ∃ encoding rest, v.EncodedAs encoding ∧ bs = encoding ++ rest

/-- Encodings one after the other, with nothing before, between and behind them. -/
inductive Row : List Value → Bytes → Prop
  | nil : Row [] []
  | cons {v : Value} {vs : List Value} {encoding rest : Bytes} (first : v.EncodedAs encoding)
    (others : Row vs rest) : Row (v :: vs) (encoding ++ rest)

/-- Behind an encoding the row goes on as if it had begun there. -/
theorem items_append {v : Value} {encoding : Bytes} (h : v.EncodedAs encoding) (rest : Bytes) :
    items (encoding ++ rest) = .ok v :: items rest := by
  have hne : ¬ (encoding ++ rest).isEmpty = true := by
    simp [h.ne_nil]
  have hparse : parse (encoding ++ rest) = .ok (v, rest) := parse_eq_ok_iff.2 ⟨_, h, rfl⟩
  rw [items, if_neg hne]
  split
  · rename_i he
    cases hparse.symm.trans he
  · rename_i hv
    cases hparse.symm.trans hv
    rfl

/-- Whatever the items of a byte string start with, the string starts with an encoding of it. -/
theorem exists_of_items {bs : Bytes} {v : Value} {tail : List (Except Error Value)}
    (h : items bs = .ok v :: tail) :
    ∃ encoding rest, v.EncodedAs encoding ∧ bs = encoding ++ rest ∧ tail = items rest := by
  rw [items] at h
  split at h
  · cases h
  · split at h
    · cases h
    · rename_i hparse
      cases h
      obtain ⟨encoding, hencoding, rfl⟩ := parse_eq_ok_iff.1 hparse
      exact ⟨encoding, _, hencoding, rfl, rfl⟩

theorem items_eq_cons_iff {bs : Bytes} {v : Value} :
    (∃ tail, items bs = .ok v :: tail) ↔ v.Leads bs := by
  constructor
  · rintro ⟨tail, h⟩
    obtain ⟨encoding, rest, hencoding, hbytes, -⟩ := exists_of_items h
    exact ⟨encoding, rest, hencoding, hbytes⟩
  · rintro ⟨encoding, rest, hencoding, rfl⟩
    exact ⟨_, items_append hencoding rest⟩

/-- Reading a row without errors gives the values of which the bytes are encodings. -/
theorem items_eq_map_ok_iff {bs : Bytes} {vs : List Value} :
    items bs = vs.map .ok ↔ Row vs bs := by
  constructor
  · intro h
    induction vs generalizing bs with
    | nil =>
      rw [items] at h
      split at h
      · rename_i hempty
        rw [List.isEmpty_iff.1 hempty]
        exact .nil
      · split at h <;> cases h
    | cons v vs ih =>
      obtain ⟨encoding, rest, hencoding, rfl, hrest⟩ := exists_of_items h
      exact .cons hencoding (ih hrest.symm)
  · intro h
    induction h with
    | nil => rw [items]; rfl
    | cons first others ih => rw [items_append first, ih, List.map_cons]

/-- The children of a constructed value fill its content. -/
theorem children_eq_ok_iff {v : Value} (h : v.isConstructed = true) {vs : List Value} :
    v.children = .ok vs ↔ Row vs v.content := by
  rw [children, mapM_id_eq_ok_iff, childItems, if_pos h, items_eq_map_ok_iff]

/-! ### The shortest encoding -/

def toBytes (v : Value) : Bytes :=
  v.code :: (lengthBytes v.content.length ++ v.content)

structure Writable (v : Value) : Prop where
  low : v.code &&& 0x1F ≠ 0x1F
  short : v.content.length < 2 ^ 32

/-- The shortest form is one of the forms that a value has. -/
theorem Writable.encodedAs {v : Value} (h : v.Writable) : v.EncodedAs v.toBytes :=
  ⟨h.low, _, isLength_lengthBytes h.short, rfl⟩

theorem row_flatMap {vs : List Value} (h : ∀ v ∈ vs, v.Writable) : Row vs (vs.flatMap toBytes) := by
  induction vs with
  | nil => exact .nil
  | cons v vs ih =>
    obtain ⟨hfirst, hrest⟩ := List.forall_mem_cons.1 h
    rw [List.flatMap_cons]
    exact .cons hfirst.encodedAs (ih hrest)

def sequence (vs : List Value) : Value :=
  ⟨0x30, vs.flatMap toBytes⟩

theorem low_sequence (vs : List Value) : (sequence vs).code &&& 0x1F ≠ 0x1F :=
  (by decide : (0x30 : UInt8) &&& 0x1F ≠ 0x1F)

theorem leads_sequence {v : Value} (h : v.Writable) (vs : List Value) :
    v.Leads (sequence (v :: vs)).content :=
  ⟨_, _, h.encodedAs, List.flatMap_cons⟩

/-- What a value within a sequence holds is shorter than what the sequence holds. -/
theorem Writable.of_mem {v : Value} {vs : List Value} (h : (sequence vs).Writable) (hv : v ∈ vs)
    (hlow : v.code &&& 0x1F ≠ 0x1F) : v.Writable := by
  refine ⟨hlow, Nat.lt_of_le_of_lt ?_ h.short⟩
  have hle : v.toBytes.length ≤ (sequence vs).content.length := Bytes.length_le_flatMap hv
  rw [toBytes, List.length_cons, List.length_append] at hle
  omega

def integer (n : Nat) : Value :=
  ⟨0x02, Bytes.ofNat (Nat.size n / 8 + 1) n⟩

theorem low_integer (n : Nat) : (integer n).code &&& 0x1F ≠ 0x1F :=
  (by decide : (0x02 : UInt8) &&& 0x1F ≠ 0x1F)

/-- A number is written with the highest bit of its first byte clear, so it is not read as a
negative one. -/
theorem integer_content (n : Nat) : ∃ b rest, (integer n).content = b :: rest ∧ b < 0x80 ∧
    (integer n).content.toNat = n := by
  have hlt : n < 0x80 * 256 ^ (Nat.size n / 8) := by
    calc
      n < 2 ^ Nat.size n := Nat.lt_size_self n
      _ ≤ 2 ^ (7 + 8 * (Nat.size n / 8)) := Nat.pow_le_pow_right (by decide) (by omega)
      _ = 0x80 * 256 ^ (Nat.size n / 8) := by rw [Nat.pow_add, Nat.pow_mul]
  have htop : n / 256 ^ (Nat.size n / 8) < 0x80 :=
    Nat.div_lt_of_lt_mul (by rwa [Nat.mul_comm] at hlt)
  refine ⟨_, _, Bytes.ofNat_succ_eq_cons _ n, ?_, ?_⟩
  · rw [UInt8.lt_iff_toNat_lt, UInt8.toNat_ofNat_of_lt' (Nat.lt_of_lt_of_le htop (by decide))]
    exact htop
  · have hwide : n < 256 ^ (Nat.size n / 8 + 1) := by
      rw [Nat.pow_succ']
      exact Nat.lt_of_lt_of_le hlt (Nat.mul_le_mul_right _ (by decide))
    rw [integer, Bytes.toNat_ofNat, Nat.mod_eq_of_lt hwide]

end Value
end Der
end TlsClient
