import TlsClient.Proofs.Wire.Messages
import TlsClient.Session.Reassembly

/-!
The messages at the front of a byte string. `Handshake.announced` reads a length off a header and
`Session.greedy` takes one message after the other off a string; `Waits` is said of a buffer that has
to grow, and `Manageable` of one whose first message is within the limit if it is complete.
-/

namespace TlsClient

/-! ### The split of a byte string -/

namespace Handshake

/-- The length of the message that a byte string begins with, its header included, as the header
announces it. Fewer than four bytes announce nothing. -/
def announced (bs : Bytes) : Option Nat :=
  if bs.length < 4 then none else some (4 + Bytes.toNat ((bs.drop 1).take 3))

theorem announced_eq_some_iff {bs : Bytes} {n : Nat} :
    announced bs = some n ↔
      ∃ header rest, HandshakeHeader.parse bs = .ok (header, rest) ∧
        n = HandshakeHeader.byteLength + header.length := by
  constructor
  · intro h
    unfold announced at h
    split at h
    · cases h
    · rename_i hlong
      obtain ⟨a, b, c, d, rest, rfl⟩ : ∃ a b c d rest, bs = a :: b :: c :: d :: rest := by
        match bs, hlong with
        | a :: b :: c :: d :: rest, _ => exact ⟨a, b, c, d, rest, rfl⟩
        | [], hlong | [_], hlong | [_, _], hlong | [_, _, _], hlong => simp at hlong
      have hlength : Bytes.toNat [b, c, d] < 2 ^ 24 :=
        Bytes.toNat_lt_of_length (n := 3) rfl
      have hbytes : Bytes.ofNat 3 (Bytes.toNat [b, c, d]) = [b, c, d] :=
        Bytes.ofNat_toNat_of_length rfl
      refine ⟨⟨.ofCode a, Bytes.toNat [b, c, d]⟩, rest, ?_, ?_⟩
      · apply HandshakeHeader.parse_eq_ok_iff.2
        refine ⟨MessageType.canonical_ofCode a, hlength, ?_⟩
        rw [HandshakeHeader.toBytes, hbytes, MessageType.code_ofCode]
        rfl
      · exact (Option.some.inj h).symm
  · intro h
    obtain ⟨header, rest, hparse, rfl⟩ := h
    obtain ⟨-, hlength, rfl⟩ := HandshakeHeader.parse_eq_ok_iff.1 hparse
    -- The three bytes after the first one are the length as it was written.
    have htake : (((header.toBytes ++ rest).drop 1).take 3) = Bytes.ofNat 3 header.length := by
      rw [HandshakeHeader.toBytes, List.cons_append, List.drop_one, List.tail_cons,
        List.take_left' (Bytes.length_ofNat 3 _)]
    have hlong : ¬ (header.toBytes ++ rest).length < 4 := by
      rw [List.length_append, header.length_toBytes, HandshakeHeader.byteLength]
      omega
    have hlength' : header.length < 256 ^ 3 := hlength
    rw [announced, if_neg hlong, htake, Bytes.toNat_ofNat, Nat.mod_eq_of_lt hlength']
    rfl

theorem four_le_of_announced {bs : Bytes} {n : Nat} (h : announced bs = some n) :
    4 ≤ bs.length ∧ 4 ≤ n := by
  unfold announced at h
  split at h
  · cases h
  · obtain rfl := Option.some.inj h
    omega

/-- The header of a message has four bytes. -/
theorem announced_eq_none_iff {bs : Bytes} : announced bs = none ↔ bs.length < 4 := by
  unfold announced
  split <;> simp_all

/-- A header says the same whatever follows it. -/
theorem announced_append {a : Bytes} {n : Nat} (b : Bytes) (h : announced a = some n) :
    announced (a ++ b) = some n := by
  have hfour := (four_le_of_announced h).1
  unfold announced at h ⊢
  rw [if_neg (by omega)] at h
  rw [if_neg (by rw [List.length_append]; omega), ← h]
  have hdrop : (a ++ b).drop 1 = a.drop 1 ++ b := List.drop_append_of_le_length (by omega)
  have htake : (a.drop 1 ++ b).take 3 = (a.drop 1).take 3 :=
    List.take_append_of_le_length (by rw [List.length_drop]; omega)
  rw [hdrop, htake]

/-- A message is complete once as many bytes are there as it announces. -/
theorem completeLength_eq_some_iff_announced {bs : Bytes} {n : Nat} :
    completeLength bs = some n ↔ announced bs = some n ∧ n ≤ bs.length := by
  rw [completeLength_eq_some_iff, announced_eq_some_iff]
  constructor
  · intro h
    obtain ⟨header, rest, hparse, hn, hle⟩ := h
    exact ⟨⟨header, rest, hparse, hn⟩, hle⟩
  · intro h
    obtain ⟨⟨header, rest, hparse, hn⟩, hle⟩ := h
    exact ⟨header, rest, hparse, hn, hle⟩

end Handshake

namespace Session

open Network Handshake

theorem length_sub_announced {bs : Bytes} {n : Nat} (h : announced bs = some n)
    (hle : n ≤ bs.length) : bs.length - n < bs.length := by
  have hfour := (four_le_of_announced h).2
  omega

/-- The messages at the front of a byte string, one after the other, and what is left: a message that
is not complete, or one that announces more than is ever waited for. -/
def greedy (bs : Bytes) : List Bytes × Bytes :=
  match h : announced bs with
  | none => ([], bs)
  | some n =>
    if hn : n ≤ messageLimit ∧ n ≤ bs.length then
      have := length_sub_announced h hn.2
      (bs.take n :: (greedy (bs.drop n)).1, (greedy (bs.drop n)).2)
    else ([], bs)
termination_by bs.length
decreasing_by
  all_goals
    rw [List.length_drop]
    exact this

/-- A complete message is split off, and the rest is split as before. -/
theorem greedy_of_complete {bs : Bytes} {n : Nat} (h : announced bs = some n)
    (hlimit : n ≤ messageLimit) (hle : n ≤ bs.length) :
    greedy bs = (bs.take n :: (greedy (bs.drop n)).1, (greedy (bs.drop n)).2) := by
  rw [greedy]
  split
  · rename_i hnone
    rw [h] at hnone
    cases hnone
  · rename_i k hk
    obtain rfl := Option.some.inj (h.symm.trans hk)
    rw [dif_pos ⟨hlimit, hle⟩]

theorem greedy_of_incomplete {bs : Bytes}
    (h : ∀ n, announced bs = some n → n ≤ bs.length → messageLimit < n) : greedy bs = ([], bs) := by
  rw [greedy]
  split
  · rfl
  · rename_i n hn
    rw [dif_neg]
    intro hc
    exact absurd (h n hn hc.2) (Nat.not_lt.2 hc.1)

/-- At a message that announces too much the split stops. -/
theorem greedy_of_overlong {bs : Bytes} {n : Nat} (h : announced bs = some n)
    (hlimit : messageLimit < n) : greedy bs = ([], bs) := by
  apply greedy_of_incomplete
  intro k hk _
  obtain rfl := Option.some.inj (h.symm.trans hk)
  exact hlimit

/-- Induction along the split: a message is taken off the front until there is none. -/
theorem greedy_induction {P : Bytes → Prop}
    (message : ∀ bs n, announced bs = some n → n ≤ messageLimit → n ≤ bs.length → P (bs.drop n) →
      P bs)
    (rest : ∀ bs, (∀ n, announced bs = some n → n ≤ bs.length → messageLimit < n) → P bs)
    (bs : Bytes) : P bs := by
  induction hl : bs.length using Nat.strongRecOn generalizing bs with
  | ind l ih =>
    by_cases h : ∃ n, announced bs = some n ∧ n ≤ messageLimit ∧ n ≤ bs.length
    · obtain ⟨n, hn, hlimit, hle⟩ := h
      apply message bs n hn hlimit hle
      apply ih (bs.length - n) (hl ▸ length_sub_announced hn hle)
      exact List.length_drop
    · apply rest
      intro n hn hle
      apply Nat.not_le.1
      intro hlimit
      exact h ⟨n, hn, hlimit, hle⟩

/-- The split loses nothing, and every message of it is complete and within the limit. -/
theorem greedy_spec (bs : Bytes) :
    (greedy bs).1.flatten ++ (greedy bs).2 = bs ∧
    (∀ m ∈ (greedy bs).1, completeLength m = some m.length ∧ m.length ≤ messageLimit) ∧
    ∀ n, announced (greedy bs).2 = some n → n ≤ (greedy bs).2.length → messageLimit < n := by
  induction bs using greedy_induction with
  | message bs n hn hlimit hle ih =>
    obtain ⟨hbytes, hall, hlast⟩ := ih
    rw [greedy_of_complete hn hlimit hle]
    refine ⟨?_, ?_, hlast⟩
    · rw [List.flatten_cons, List.append_assoc, hbytes, List.take_append_drop]
    · intro m hm
      rcases List.mem_cons.1 hm with rfl | hm
      · have hcomplete := completeLength_eq_some_iff_announced.2 ⟨hn, hle⟩
        refine ⟨isFramed_take hcomplete, ?_⟩
        exact Nat.le_trans (List.length_take_le n bs) hlimit
      · exact hall m hm
  | rest bs h =>
    rw [greedy_of_incomplete h]
    refine ⟨rfl, ?_, h⟩
    intro m hm
    cases hm

/-! ### Buffers -/

/-- Whether a buffer without its first message, if that is complete, is still within the limit, and
the message with it. -/
def Manageable (b : Bytes) : Prop :=
  ∀ n, announced b = some n → n ≤ b.length → n ≤ messageLimit ∧ b.length - n ≤ messageLimit

/-- Whether a buffer is one that more is received for: no message in it is complete, and none is
announced that is too long. -/
def Waits (b : Bytes) : Prop :=
  ∀ n, announced b = some n → b.length < n ∧ n ≤ messageLimit

/-- A buffer that waits has no message at its front. -/
theorem greedy_of_waits {b : Bytes} (h : Waits b) : greedy b = ([], b) := by
  apply greedy_of_incomplete
  intro n hn hle
  exact absurd hle (Nat.not_le.2 (h n hn).1)

theorem manageable_nil : Manageable [] := by
  intro n hn
  have hfour := (four_le_of_announced hn).1
  simp only [List.length_nil] at hfour
  omega

/-- Taking a message out keeps a buffer manageable. -/
theorem Manageable.drop {b : Bytes} {n : Nat} (h : Manageable b) (hn : announced b = some n)
    (hle : n ≤ b.length) : Manageable (b.drop n) := by
  obtain ⟨-, hrest⟩ := h n hn hle
  intro k _ hk
  rw [List.length_drop] at hk ⊢
  omega

/-- One more record does not make a buffer unmanageable, because a record is shorter than the
limit. -/
theorem Waits.manageable_append {b fragment : Bytes} (h : Waits b)
    (hshort : fragment.length ≤ Record.maxPlaintext) : Manageable (b ++ fragment) := by
  have hlimit : 3 + Record.maxPlaintext ≤ messageLimit := by decide
  intro k hk hle
  rw [List.length_append] at hle ⊢
  cases hb : announced b with
  | none =>
    have hfew := announced_eq_none_iff.1 hb
    omega
  | some n =>
    -- The header was there before, so the message ends inside the new record.
    obtain ⟨hmore, hn⟩ := h n hb
    obtain rfl := Option.some.inj ((announced_append fragment hb).symm.trans hk)
    omega

/-- A buffer begins with a complete message, or with one that is too long and not complete, or it
waits. -/
theorem complete_or_overlong_or_waits (b : Bytes) :
    (∃ n, announced b = some n ∧ n ≤ b.length) ∨
      (∃ n, announced b = some n ∧ b.length < n ∧ messageLimit < n) ∨ Waits b := by
  cases hb : announced b with
  | none =>
    right; right
    intro n hn
    rw [hb] at hn
    cases hn
  | some n =>
    by_cases hle : n ≤ b.length
    · exact .inl ⟨n, rfl, hle⟩
    · by_cases hlimit : n ≤ messageLimit
      · right; right
        intro k hk
        obtain rfl := Option.some.inj (hb.symm.trans hk)
        exact ⟨Nat.not_le.1 hle, hlimit⟩
      · exact .inr (.inl ⟨n, rfl, Nat.not_le.1 hle, Nat.not_le.1 hlimit⟩)

end Session
end TlsClient
