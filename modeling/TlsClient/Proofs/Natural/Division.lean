import TlsClient.Proofs.Natural.Words

namespace TlsClient.Words

/-- The division has `k + 1` steps to go: its divisor is `m` moved `k` places to the left. -/
structure Division.Under (d : Division) (m k : Nat) : Prop where
  divisor : value d.divisor = m * 2 ^ k
  rest_lt : value d.rest < m * 2 ^ (k + 1)

namespace Division

/-- A step subtracts exactly if that is possible. -/
theorem value_rest_step (d : Division) :
    value d.step.rest =
      if value d.rest < value d.divisor then value d.rest else value d.rest - value d.divisor := by
  rw [step]
  by_cases h : value d.rest < value d.divisor
  · rw [if_pos h, if_pos ((less_eq_true_iff _ _).2 h)]
  · rw [if_neg h, if_neg fun hless => h ((less_eq_true_iff _ _).1 hless)]
    exact value_sub (Nat.le_of_not_lt h)

theorem Under.rest_step_lt {d : Division} {m k : Nat} (h : d.Under m k) :
    value d.step.rest < m * 2 ^ k := by
  have hlt := h.rest_lt
  rw [Nat.pow_succ, ← Nat.mul_assoc] at hlt
  rw [value_rest_step, h.divisor]
  split <;> omega

/-- A step takes a multiple of the modulus away. -/
theorem Under.rest_step_mod {d : Division} {m k : Nat} (h : d.Under m k) :
    value d.step.rest % m = value d.rest % m := by
  rw [value_rest_step, h.divisor]
  split
  · rfl
  · rename_i hnot
    exact Nat.sub_mul_mod (Nat.le_of_not_lt hnot)

/-- One step keeps the bound: what is left is below twice the divisor as it now stands. -/
theorem Under.step {d : Division} {m k : Nat} (h : d.Under m (k + 1)) : d.step.Under m k where
  divisor := by
    have hhalf : m * 2 ^ (k + 1) / 2 = m * 2 ^ k := by
      rw [Nat.pow_succ, ← Nat.mul_assoc]
      exact Nat.mul_div_cancel _ (by decide)
    rw [Division.step, value_halve, h.divisor, hhalf]
  rest_lt := h.rest_step_lt

/-- So the bound holds after any number of steps, with as many steps less to go. -/
theorem Under.run {d : Division} {m k : Nat} (n : Nat) (h : d.Under m (k + n)) :
    (d.run n).Under m k := by
  induction n generalizing d with
  | zero => exact h
  | succ n ih => exact ih h.step

/-- Only multiples of the divisor are subtracted. -/
theorem Under.rest_run_mod {d : Division} {m k : Nat} (n : Nat) (h : d.Under m (k + n)) :
    value (d.run n).rest % m = value d.rest % m := by
  induction n generalizing d with
  | zero => rfl
  | succ n ih => rw [Division.run, ih h.step, h.rest_step_mod]

/-- When no steps are left, what remains is below the divisor, so it is the remainder. -/
theorem value_rest_run {d : Division} {m k : Nat} (h : d.Under m k) :
    value (run (k + 1) d).rest = value d.rest % m := by
  induction k generalizing d with
  | zero =>
    have hlt := h.rest_step_lt
    rw [Nat.pow_zero, Nat.mul_one] at hlt
    rw [← h.rest_step_mod, Nat.mod_eq_of_lt hlt]
    rfl
  | succ k ih =>
    rw [run, ih h.step, h.rest_step_mod]

/-- A division begins with the divisor under the top bit of the dividend. -/
theorem under_of_aligned {a m : List UInt32} (hm : value m ≠ 0) (h : bitLength m ≤ bitLength a) :
    Under ⟨a, shiftLeft m (bitLength a - bitLength m)⟩ (value m) (bitLength a - bitLength m) := by
  have hsize : bitLength a = Nat.size (value a) := bitLength_eq_size a
  have hsizem : bitLength m = Nat.size (value m) := bitLength_eq_size m
  constructor
  · exact value_shiftLeft _ _
  · have hpos : 0 < Nat.size (value m) := Nat.size_pos.2 (Nat.pos_of_ne_zero hm)
    have htop : 2 ^ (Nat.size (value m) - 1) ≤ value m := Nat.lt_size.1 (by omega)
    have hsum : Nat.size (value a) =
        Nat.size (value m) - 1 + (bitLength a - bitLength m + 1) := by omega
    calc
      value a < 2 ^ Nat.size (value a) := Nat.lt_size_self _
      _ = 2 ^ (Nat.size (value m) - 1) * 2 ^ (bitLength a - bitLength m + 1) := by
        rw [← Nat.pow_add, ← hsum]
      _ ≤ value m * 2 ^ (bitLength a - bitLength m + 1) := Nat.mul_le_mul_right _ htop

end Division

/-- The remainder of a long division is that of the numbers. -/
theorem value_rem {a m : List UInt32} (hm : value m ≠ 0) :
    value (rem a m) = value a % value m := by
  have hsize : bitLength a = Nat.size (value a) := bitLength_eq_size a
  have hsizem : bitLength m = Nat.size (value m) := bitLength_eq_size m
  rw [rem]
  by_cases hlt : bitLength a < bitLength m
  · -- A number with fewer digits is smaller.
    have hpow : 2 ^ Nat.size (value a) ≤ value m := Nat.lt_size.1 (by omega)
    have hless := Nat.lt_of_lt_of_le (Nat.lt_size_self (value a)) hpow
    rw [if_pos hlt, Nat.mod_eq_of_lt hless]
  · rw [if_neg hlt]
    exact Division.value_rest_run (Division.under_of_aligned hm (Nat.le_of_not_lt hlt))

end TlsClient.Words
