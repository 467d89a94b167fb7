import TlsClient.Hmac
import TlsClient.Proofs.Bytes

namespace TlsClient

namespace Sha256

/-- Whole blocks can be taken in first. -/
theorem Chain.absorb_append (v : Chain) (a b : Bytes) (h : blockLength ∣ a.length) :
    v.absorb (a ++ b) = (v.absorb a).absorb b := by
  rw [absorb, Bytes.chunks_append (by decide) a b h, List.foldl_append]
  rfl

/-- Cutting the whole blocks off a string and the rest with what follows it cuts them all off. -/
theorem take_whole_append (x b : Bytes) (n m : Nat) (hn : n = x.length / blockLength * blockLength)
    (hm : m = ((x.drop n).length + b.length) / blockLength * blockLength) :
    (x ++ b).length / blockLength * blockLength = n + m ∧
      (x ++ b).take (n + m) = x.take n ++ (x.drop n ++ b).take m ∧
      (x ++ b).drop (n + m) = (x.drop n ++ b).drop m := by
  have hle : n ≤ x.length := hn ▸ Nat.div_mul_le_self _ _
  have hdrop : (x ++ b).drop n = x.drop n ++ b := List.drop_append_of_le_length hle
  have htake : (x ++ b).take n = x.take n := List.take_append_of_le_length hle
  refine ⟨?_, ?_, ?_⟩
  · rw [List.length_drop] at hm
    rw [List.length_append]
    simp only [blockLength] at hn hm ⊢
    omega
  · rw [List.take_add, htake, hdrop]
  · rw [← List.drop_drop, hdrop]

/-- Two pieces one after the other are taken in like both in one. -/
theorem update_update (s : Sha256) (a b : Bytes) : (s.update a).update b = s.update (a ++ b) := by
  -- What is absorbed at first is a number of whole blocks, so absorbing goes on after it.
  have hdvd : blockLength ∣
      ((s.pending ++ a).take ((s.pending ++ a).length / blockLength * blockLength)).length := by
    rw [List.length_take, Nat.min_eq_left (Nat.div_mul_le_self _ _)]
    exact Nat.dvd_mul_left _ _
  obtain ⟨hwhole, htake, hdrop⟩ := take_whole_append (s.pending ++ a) b _ _ rfl rfl
  have hchain := Chain.absorb_append s.chain _ ((((s.pending ++ a).drop
    ((s.pending ++ a).length / blockLength * blockLength)) ++ b).take
    ((((s.pending ++ a).drop ((s.pending ++ a).length / blockLength * blockLength)).length +
      b.length) / blockLength * blockLength)) hdvd
  simp only [update, ← List.append_assoc, mk.injEq]
  -- What is absorbed in two steps is what is absorbed in one, and the same bytes are left.
  rw [hwhole, htake, hdrop, hchain]
  simp only [List.length_append]
  refine ⟨trivial, trivial, Nat.add_assoc _ _ _⟩

theorem update_nil : empty.update [] = empty := by
  simp [update, empty, Chain.absorb, Bytes.chunks_nil]

end Sha256

/-- A message in two parts is authenticated like one. -/
theorem Hmac.update_update (m : Hmac) (a b : Bytes) : (m.update a).update b = m.update (a ++ b) := by
  rw [update, update, update, Sha256.update_update]

end TlsClient
