import Mathlib.Tactic.ComputeDegree
import TlsClient.Proofs.Aes.Inverse
import TlsClient.Proofs.BinaryField

namespace TlsClient.Aes

open Polynomial AdjoinRoot BinaryField

noncomputable def modulus : (ZMod 2)[X] :=
  X ^ 8 + X ^ 4 + X ^ 3 + X + 1

abbrev ByteField := AdjoinRoot modulus

theorem natDegree_modulus : modulus.natDegree = 8 := by
  unfold modulus
  compute_degree!

theorem monic_modulus : modulus.Monic := by
  unfold modulus
  monicity!

/-- What `x^8` reduces to is read off the modulus. -/
theorem root_modulus :
    root modulus ^ 8 + root modulus ^ 4 + root modulus ^ 3 + root modulus + 1 = 0 := by
  have hmodulus : modulus = X ^ 8 + X ^ 4 + X ^ 3 + X + 1 := by
    unfold modulus
    rfl
  have h := mk_eq_zero_of_eq hmodulus
  simpa only [map_add, map_pow, map_one, mk_X] using h

/-- The residue that a byte stands for: its lowest bit is the constant coefficient. -/
noncomputable def residue (b : UInt8) : ByteField :=
  BinaryField.residue modulus 8 b.toBitVec.getLsbD

/-- Exclusive or is addition, since both are without carries. -/
theorem residue_xor (a b : UInt8) : residue (a ^^^ b) = residue a + residue b :=
  residue_eq_add fun _ _ => BitVec.getLsbD_xor

theorem residue_zero : residue 0 = 0 :=
  residue_eq_zero fun _ _ => BitVec.getLsbD_zero

/-- Eight coefficients are fewer than the degree of the modulus allows, so none of them is lost. -/
theorem residue_injective : Function.Injective residue := by
  intro a b h
  have hbits : BinaryField.residue modulus modulus.natDegree a.toBitVec.getLsbD =
      BinaryField.residue modulus modulus.natDegree b.toBitVec.getLsbD := by
    rw [natDegree_modulus]
    exact h
  apply UInt8.toBitVec_inj.1
  refine BitVec.eq_of_getLsbD_eq fun i hi => ?_
  exact BinaryField.residue_injective monic_modulus hbits i (natDegree_modulus ▸ hi)

theorem residue_bijective : Function.Bijective residue := by
  have hfinite := monic_modulus.finite_adjoinRoot
  have hfield : Finite ByteField := Module.finite_of_finite (ZMod 2)
  have hbytes : Nat.card UInt8 = 2 ^ 8 :=
    (Nat.card_congr ⟨UInt8.toFin, UInt8.ofFin, UInt8.ofFin_toFin, UInt8.toFin_ofFin⟩).trans
      (Nat.card_fin _)
  refine residue_injective.bijective_of_nat_card_le ?_
  rw [natCard_adjoinRoot monic_modulus, natDegree_modulus, hbytes]

theorem outerBits (a : UInt8) : a.toBitVec.getLsbD 0 = decide (a &&& 1 = 1) ∧
    a.toBitVec.getLsbD 7 = decide (a >>> 7 = 1) := by
  revert a
  apply forall_byte
  decide +kernel

/-- What `x^8` reduces to. -/
theorem residue_reduction : residue 0x1b = root modulus ^ 8 := by
  have hlow : residue 0x1b = 1 + root modulus + root modulus ^ 3 + root modulus ^ 4 := by
    rw [residue, residue_of_unset (m := 5) (by decide) (by decide)]
    simp [BinaryField.residue, Finset.sum_range_succ, coefficient]
  have hpow := add_self (root modulus ^ 8)
  linear_combination hlow + root_modulus - hpow

theorem residue_shiftLeft (a : UInt8) :
    residue (a <<< 1) = root modulus * BinaryField.residue modulus 7 a.toBitVec.getLsbD := by
  have hfirst : (a <<< 1).toBitVec.getLsbD 0 = false := by simp
  have hnext : BinaryField.residue modulus 7 (fun i => (a <<< 1).toBitVec.getLsbD (i + 1)) =
      BinaryField.residue modulus 7 a.toBitVec.getLsbD := by
    refine residue_congr fun i hi => ?_
    have hlt : i + 1 < 8 := by omega
    simp [hlt, -BitVec.getLsbD_eq_getElem]
  rw [residue, BinaryField.residue_succ, hfirst, hnext]
  simp [coefficient]

/-- Doubling is multiplication by `x`, with the bit that falls out reduced. -/
theorem residue_double (a : UInt8) : residue (double a) = root modulus * residue a := by
  have hlast : residue a = BinaryField.residue modulus 7 a.toBitVec.getLsbD +
      coefficient (a.toBitVec.getLsbD 7) • root modulus ^ 7 := residue_succ_last 7 _
  rw [double, residue_xor, residue_shiftLeft, hlast, (outerBits a).2, mul_add, mul_smul_comm,
    ← pow_succ']
  -- The bit that is shifted out is the coefficient of `x^8`.
  rcases shiftRight_seven a with h | h
  · simp [h, residue_zero, coefficient]
  · simp [h, residue_reduction, coefficient]

theorem residue_mulBits (n : ℕ) (a b : UInt8) :
    residue (mulBits n a b) = residue a * BinaryField.residue modulus n b.toBitVec.getLsbD := by
  induction n generalizing a b with
  | zero =>
    rw [mulBits, residue_zero]
    simp [BinaryField.residue]
  | succ n ih =>
    have hrest : BinaryField.residue modulus n (b >>> 1).toBitVec.getLsbD =
        BinaryField.residue modulus n (fun i => b.toBitVec.getLsbD (i + 1)) :=
      residue_congr fun i _ => by simp [Nat.add_comm]
    rw [mulBits, residue_xor, ih, residue_double, hrest, BinaryField.residue_succ,
      (outerBits b).1]
    by_cases h : b &&& 1 = 1
    · simp [h, coefficient]
      ring
    · simp [h, residue_zero, coefficient]
      ring

/-- The product of bytes is the product of the field. -/
theorem residue_mul (a b : UInt8) : residue (mul a b) = residue a * residue b :=
  residue_mulBits 8 a b

theorem residue_one : residue 1 = 1 := by
  rw [residue, residue_of_unset (m := 1) (by decide) (by decide)]
  simp [BinaryField.residue, coefficient]

theorem residue_two : residue 2 = root modulus := by
  rw [residue, residue_of_unset (m := 2) (by decide) (by decide)]
  simp [BinaryField.residue, Finset.sum_range_succ, coefficient]

/-- The modulus is irreducible, so the bytes form a field. -/
theorem irreducible_modulus : Irreducible modulus := by
  have hsquare (b : UInt8) : residue (mul b b) = residue b ^ 2 := by rw [residue_mul, sq]
  have hfirst : (fun b => mul b b)^[4] 2 = 0x5e := by decide +kernel
  have hsecond : (fun b => mul b b)^[4] 0x5e = 2 := by decide +kernel
  refine irreducible_of_squares (k := 2) hsquare natDegree_modulus residue_two hfirst hsecond ?_
  have hinverse : mul (0x5e ^^^ 2) 0x51 = 1 := by decide +kernel
  have hproduct := congrArg residue hinverse
  rw [residue_mul, residue_xor, residue_one, residue_two] at hproduct
  exact IsUnit.of_mul_eq_one _ hproduct

instance fact_irreducible_modulus : Fact (Irreducible modulus) :=
  ⟨irreducible_modulus⟩

end TlsClient.Aes
