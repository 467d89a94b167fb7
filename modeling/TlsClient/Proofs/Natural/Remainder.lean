import TlsClient.Proofs.Natural.Modular

namespace TlsClient

namespace Words

theorem length_subBorrow (a b : List UInt32) (c : UInt64) :
    (subBorrow a b c).length = a.length := by
  induction a generalizing b c with
  | nil => rfl
  | cons x xs ih => cases b <;> simp [subBorrow, ih]

namespace Division

theorem length_rest_step (d : Division) : d.step.rest.length = d.rest.length := by
  rw [step]
  split
  · rfl
  · exact length_subBorrow _ _ _

/-- What is left of the dividend stays in the words that the dividend had. -/
theorem length_rest_run (n : ℕ) (d : Division) : (d.run n).rest.length = d.rest.length := by
  induction n generalizing d with
  | zero => rfl
  | succ n ih => rw [run, ih, length_rest_step]

/-- A divisor under the top bit of the dividend is no wider than the dividend. -/
theorem aligned_lt {a m : List UInt32} (h : bitLength m ≤ bitLength a) :
    value m * 2 ^ (bitLength a - bitLength m) < 2 ^ (32 * a.length) := by
  have hsize : bitLength a = Nat.size (value a) := bitLength_eq_size a
  have hsizem : bitLength m = Nat.size (value m) := bitLength_eq_size m
  have hwidth : bitLength a ≤ 32 * a.length := by
    rw [hsize, Nat.size_le]
    exact value_lt a
  calc
    value m * 2 ^ (bitLength a - bitLength m)
      < 2 ^ bitLength m * 2 ^ (bitLength a - bitLength m) := by
        rw [hsizem]
        exact Nat.mul_lt_mul_of_pos_right (Nat.lt_size_self _) (Nat.two_pow_pos _)
    _ = 2 ^ bitLength a := by rw [← Nat.pow_add, Nat.add_sub_cancel' h]
    _ ≤ 2 ^ (32 * a.length) := Nat.pow_le_pow_right (by decide) hwidth

/-- What is so after `k` steps of a division of `a` by `m`, if the divisor was moved `shift` places. -/
structure Keeps (a m : List UInt32) (shift k : ℕ) (d : Division) : Prop where
  /-- No bit of the divisor has been lost. -/
  divisor : value d.divisor = value m * 2 ^ (shift - k)
  divisor_lt : value d.divisor < 2 ^ (32 * a.length)
  length_rest : d.rest.length = a.length
  rest_lt : value d.rest < 2 * value d.divisor
  rest_mod : value d.rest % value m = value a % value m

/-- What one step keeps holds after every number of steps. -/
theorem keeps_run {a m : List UInt32} (hm : value m ≠ 0) (h : bitLength m ≤ bitLength a) {k : ℕ}
    (hk : k ≤ bitLength a - bitLength m) :
    Keeps a m (bitLength a - bitLength m) k
      (run k ⟨a, shiftLeft m (bitLength a - bitLength m)⟩) := by
  have hfits := aligned_lt h
  have hstart := under_of_aligned hm h
  generalize bitLength a - bitLength m = shift at hk hfits hstart ⊢
  -- With `left` places to come down, the steps so far are those of `Under.run`.
  obtain ⟨left, rfl⟩ := Nat.exists_eq_add_of_le' hk
  have hunder := hstart.run k
  refine ⟨?_, ?_, length_rest_run k _, ?_, hstart.rest_run_mod k⟩
  · rw [Nat.add_sub_cancel]
    exact hunder.divisor
  · rw [hunder.divisor]
    refine Nat.lt_of_le_of_lt (Nat.mul_le_mul_left _ ?_) hfits
    exact Nat.pow_le_pow_right (by decide) (Nat.le_add_right _ _)
  · have hlt := hunder.rest_lt
    rwa [Nat.pow_succ, ← Nat.mul_assoc, ← hunder.divisor, Nat.mul_comm] at hlt

end Division

/-- The division makes one step more than the divisor was moved. -/
theorem rem_eq_run {a m : List UInt32} {shift : ℕ} (h : bitLength m + shift = bitLength a) :
    rem a m = (Division.run (shift + 1) ⟨a, shiftLeft m shift⟩).rest := by
  have hshift : bitLength a - bitLength m = shift := by omega
  rw [rem, if_neg (by omega), hshift]

end Words

namespace Natural

/-- Remainders and products modulo `m` are those of the natural numbers, for operands and moduli of any
size, and only a modulus of zero has none. A division takes one step more than the places by which the
divisor was moved, and before each step `Division.Keeps` holds of it. -/
theorem division_exact (a b m : Natural) :
    (match a.rem m with
      | .ok r => m.value ≠ 0 ∧ r.value = a.value % m.value
      | .error fault => m.value = 0 ∧ fault = .divisionByZero) ∧
    (match a.modMul b m with
      | .ok r => m.value ≠ 0 ∧ r.value = a.value * b.value % m.value
      | .error fault => m.value = 0 ∧ fault = .divisionByZero) ∧
    ∀ dividend divisor, Words.value divisor ≠ 0 →
      Words.value (Words.rem dividend divisor) = Words.value dividend % Words.value divisor ∧
      Words.value (Words.rem dividend divisor) < Words.value divisor ∧
      ∀ shift, Words.bitLength divisor + shift = Words.bitLength dividend →
        Words.rem dividend divisor =
          (Words.Division.run (shift + 1) ⟨dividend, Words.shiftLeft divisor shift⟩).rest ∧
        ∀ k ≤ shift, (Words.Division.run k ⟨dividend, Words.shiftLeft divisor shift⟩).Keeps
          dividend divisor shift k := by
  refine ⟨?_, ?_, fun dividend divisor hdivisor => ?_⟩
  · by_cases hm : m.value = 0
    · rw [rem, (isZero_iff m).2 hm]
      exact ⟨hm, rfl⟩
    · obtain ⟨r, hr, hvalue⟩ := rem_eq_ok hm a
      rw [hr]
      exact ⟨hm, hvalue⟩
  · by_cases hm : m.value = 0
    · rw [modMul, (isZero_iff m).2 hm]
      exact ⟨hm, rfl⟩
    · obtain ⟨r, hr, hvalue⟩ := modMul_eq_ok hm a b
      rw [hr]
      exact ⟨hm, hvalue⟩
  · have hvalue := Words.value_rem (a := dividend) hdivisor
    refine ⟨hvalue, hvalue ▸ Nat.mod_lt _ (Nat.pos_of_ne_zero hdivisor), fun shift hshift => ?_⟩
    refine ⟨Words.rem_eq_run hshift, fun k hk => ?_⟩
    have hle : Words.bitLength divisor ≤ Words.bitLength dividend := by omega
    obtain rfl : Words.bitLength dividend - Words.bitLength divisor = shift := by omega
    exact Words.Division.keeps_run hdivisor hle hk

/-- Before the last step of a division of two words the divisor stands where it came from. -/
theorem two_words_divided : Words.value [3] ≠ 0 ∧
    Words.bitLength [3] + 31 = Words.bitLength [0xffffffff, 1] ∧
    Words.value (Words.rem [0xffffffff, 1] [3]) = 1 ∧
    (Words.Division.run 31 ⟨[0xffffffff, 1], Words.shiftLeft [3] 31⟩).Keeps [0xffffffff, 1] [3] 31
      31 := by
  obtain ⟨-, -, hdivide⟩ := division_exact .one .one .one
  obtain ⟨hvalue, -, hsteps⟩ := hdivide [0xffffffff, 1] [3] (by decide)
  exact ⟨by decide, by decide, hvalue, (hsteps 31 (by decide)).2 31 (by decide)⟩

end Natural
end TlsClient
