import Mathlib.Tactic.ComputeDegree
import TlsClient.Gcm.Hash
import TlsClient.Proofs.BinaryField

namespace TlsClient.Gcm

open Polynomial AdjoinRoot BinaryField

noncomputable def modulus : (ZMod 2)[X] :=
  X ^ 128 + X ^ 7 + X ^ 2 + X + 1

abbrev BlockField := AdjoinRoot modulus

theorem natDegree_modulus : modulus.natDegree = 128 := by
  unfold modulus
  compute_degree!

theorem monic_modulus : modulus.Monic := by
  unfold modulus
  monicity!

/-- What `t^128` reduces to is read off the modulus. -/
theorem root_modulus :
    root modulus ^ 128 + root modulus ^ 7 + root modulus ^ 2 + root modulus + 1 = 0 := by
  have hmodulus : modulus = X ^ 128 + X ^ 7 + X ^ 2 + X + 1 := by
    unfold modulus
    rfl
  have h := mk_eq_zero_of_eq hmodulus
  simpa only [map_add, map_pow, map_one, mk_X] using h

/-- The residue that an element stands for: its most significant bit is the constant coefficient. -/
noncomputable def Element.residue (x : Element) : BlockField :=
  BinaryField.residue modulus 128 x.getMsbD

/-- Exclusive or is addition, since both are without carries. -/
theorem residue_xor (x y : Element) : Element.residue (x ^^^ y) = x.residue + y.residue :=
  residue_eq_add fun _ _ => BitVec.getMsbD_xor

theorem residue_zero : Element.residue 0 = 0 :=
  residue_eq_zero fun _ _ => BitVec.getMsbD_zero

/-- An element has fewer bits than the degree of the modulus allows, so none of them is lost. -/
theorem residue_injective : Function.Injective Element.residue := by
  intro x y h
  have hbits : BinaryField.residue modulus modulus.natDegree x.getMsbD =
      BinaryField.residue modulus modulus.natDegree y.getMsbD := by
    rw [natDegree_modulus]
    exact h
  refine BitVec.eq_of_getMsbD_eq fun i hi => ?_
  exact BinaryField.residue_injective monic_modulus hbits i (natDegree_modulus ▸ hi)

/-- What `t^128` reduces to. -/
theorem residue_reduction : reduction.residue = root modulus ^ 128 := by
  have hlow : reduction.residue = 1 + root modulus + root modulus ^ 2 + root modulus ^ 7 := by
    rw [Element.residue, residue_of_unset (m := 8) (by decide) (by decide)]
    simp [BinaryField.residue, Finset.sum_range_succ, coefficient, reduction]
  have hpow := add_self (root modulus ^ 128)
  linear_combination hlow + root_modulus - hpow

theorem residue_shiftRight (v : Element) :
    Element.residue (v >>> 1) = root modulus * BinaryField.residue modulus 127 v.getMsbD := by
  have hfirst : (v >>> 1).getMsbD 0 = false := by simp
  have hnext : BinaryField.residue modulus 127 (fun i => (v >>> 1).getMsbD (i + 1)) =
      BinaryField.residue modulus 127 v.getMsbD := by
    refine residue_congr fun i hi => ?_
    have hlt : i + 1 < 128 := by omega
    simp [hlt]
  rw [Element.residue, BinaryField.residue_succ, hfirst, hnext]
  simp [coefficient]

/-- A shift with the bit that falls out reduced is multiplication by `t`. -/
theorem residue_timesT (v : Element) : (timesT v).residue = root modulus * v.residue := by
  have hlast : v.residue = BinaryField.residue modulus 127 v.getMsbD +
      coefficient (v.getMsbD 127) • root modulus ^ 127 := residue_succ_last 127 _
  have hlow : v.getMsbD 127 = v.getLsbD 0 := by simp [BitVec.getMsbD]
  rw [timesT, hlast, hlow, mul_add, mul_smul_comm, ← pow_succ', ← residue_shiftRight,
    ← residue_reduction]
  -- The bit that is shifted out is the coefficient of `t^128`.
  cases v.getLsbD 0 with
  | true => simp [residue_xor, coefficient]
  | false => simp [coefficient]

/-- The `n` lowest bits of `x`, the highest one first, are the coefficients of the factor of `v`. -/
theorem residue_mulBits (x : Element) (n : ℕ) (z v : Element) :
    (mulBits x n z v).residue =
      z.residue + BinaryField.residue modulus n (fun i => x.getLsbD (n - 1 - i)) * v.residue := by
  induction n generalizing z v with
  | zero => simp [mulBits, BinaryField.residue]
  | succ n ih =>
    have hrest : BinaryField.residue modulus n (fun i => x.getLsbD (n + 1 - 1 - (i + 1))) =
        BinaryField.residue modulus n (fun i => x.getLsbD (n - 1 - i)) :=
      residue_congr fun i _ => congrArg x.getLsbD (by omega)
    rw [mulBits, ih, residue_timesT, BinaryField.residue_succ, hrest]
    cases h : x.getLsbD n with
    | true =>
      simp [h, residue_xor, coefficient]
      ring
    | false =>
      simp [h, coefficient]
      ring

/-- The product of elements is that of residues. -/
theorem residue_mul (x y : Element) : (mul x y).residue = x.residue * y.residue := by
  have hbits : BinaryField.residue modulus 128 (fun i => x.getLsbD (128 - 1 - i)) = x.residue :=
    residue_congr fun i hi => by simp [BitVec.getMsbD, hi]
  rw [mul, residue_mulBits, residue_zero, zero_add, hbits]

namespace Element

def one : Element := 1#128 <<< 127

def t : Element := 1#128 <<< 126

def half : Element := 0x6f9945a9e519a7229d4c1ad657f8a686#128

theorem residue_one : one.residue = 1 := by
  rw [residue, residue_of_unset (m := 1) (by decide) (by decide)]
  simp [BinaryField.residue, one, coefficient]

theorem residue_t : t.residue = root modulus := by
  rw [residue, residue_of_unset (m := 2) (by decide) (by decide)]
  simp [BinaryField.residue, Finset.sum_range_succ, t, coefficient]

/-- Squaring `t` 64 times gives another element, and 64 times more gives `t` back; what stands
between the two has an inverse. -/
theorem square_root : (fun x => mul x x)^[64] t = half ∧ (fun x => mul x x)^[64] half = t ∧
    mul (half ^^^ t) 0x180da934bf53158251c13dbb149f5279#128 = one := by
  decide +kernel

end Element

open Element

/-- The modulus is irreducible, so the residues form a field. -/
theorem irreducible_modulus : Irreducible modulus := by
  have hsquare (x : Element) : (mul x x).residue = x.residue ^ 2 := by rw [residue_mul, sq]
  obtain ⟨hfirst, hsecond, hone⟩ := square_root
  refine irreducible_of_squares (k := 6) hsquare natDegree_modulus residue_t hfirst hsecond ?_
  have hinverse := congrArg Element.residue hone
  rw [residue_mul, residue_xor, residue_one, residue_t] at hinverse
  exact IsUnit.of_mul_eq_one _ hinverse

instance fact_irreducible_modulus : Fact (Irreducible modulus) :=
  ⟨irreducible_modulus⟩

/-- There are no zero divisors, so a factor that is not zero can be cancelled. -/
theorem mul_right_cancel {x y h : Element} (hh : h ≠ 0) (heq : mul x h = mul y h) : x = y := by
  have hresidue : h.residue ≠ 0 := fun hzero => hh (residue_injective (hzero.trans residue_zero.symm))
  have hproducts := congrArg Element.residue heq
  rw [residue_mul, residue_mul] at hproducts
  exact residue_injective (mul_right_cancel₀ hresidue hproducts)

end TlsClient.Gcm
