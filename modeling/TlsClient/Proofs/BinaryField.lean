import Mathlib.FieldTheory.Finite.Extension

/-!
Residues of polynomials over the field of two elements, given by their coefficients as bits. Exclusive
or adds residues (`residue_eq_add`), bits below the degree of the modulus are determined by the residue
(`residue_injective`), and a few squarings decide whether the modulus is irreducible
(`irreducible_of_squares`).
-/

namespace TlsClient.BinaryField

open Polynomial AdjoinRoot

variable {f : (ZMod 2)[X]}

def coefficient (b : Bool) : ZMod 2 :=
  if b then 1 else 0

theorem coefficient_xor (b c : Bool) : coefficient (b ^^ c) = coefficient b + coefficient c := by
  cases b <;> cases c <;> decide

theorem coefficient_injective : Function.Injective coefficient := by
  intro b c
  revert b c
  decide

noncomputable def residue (f : (ZMod 2)[X]) (n : ℕ) (bits : ℕ → Bool) : AdjoinRoot f :=
  ∑ i ∈ Finset.range n, coefficient (bits i) • root f ^ i

theorem residue_congr {n : ℕ} {bits bits' : ℕ → Bool} (h : ∀ i < n, bits i = bits' i) :
    residue f n bits = residue f n bits' := by
  refine Finset.sum_congr rfl fun i hi => ?_
  rw [h i (Finset.mem_range.1 hi)]

/-- Bits that are added without carries stand for residues that are added. -/
theorem residue_eq_add {n : ℕ} {sum bits bits' : ℕ → Bool}
    (h : ∀ i < n, sum i = (bits i ^^ bits' i)) :
    residue f n sum = residue f n bits + residue f n bits' := by
  rw [residue, residue, residue, ← Finset.sum_add_distrib]
  refine Finset.sum_congr rfl fun i hi => ?_
  rw [h i (Finset.mem_range.1 hi), coefficient_xor, add_smul]

/-- The first bit is the constant coefficient, and the root is a factor of the others. -/
theorem residue_succ (n : ℕ) (bits : ℕ → Bool) :
    residue f (n + 1) bits =
      coefficient (bits 0) • 1 + root f * residue f n (fun i => bits (i + 1)) := by
  rw [residue, Finset.sum_range_succ', residue, Finset.mul_sum, pow_zero, add_comm]
  congr 1
  refine Finset.sum_congr rfl fun i _ => ?_
  rw [pow_succ', mul_smul_comm]

theorem residue_succ_last (n : ℕ) (bits : ℕ → Bool) :
    residue f (n + 1) bits = residue f n bits + coefficient (bits n) • root f ^ n :=
  Finset.sum_range_succ _ n

/-- Bits that are not set need not be counted. -/
theorem residue_of_unset {m n : ℕ} (hmn : m ≤ n) {bits : ℕ → Bool}
    (h : ∀ i < n, m ≤ i → bits i = false) : residue f n bits = residue f m bits := by
  refine (Finset.sum_subset (Finset.range_subset_range.2 hmn) fun i hi hm => ?_).symm
  rw [Finset.mem_range] at hi hm
  rw [h i hi (not_lt.1 hm)]
  exact zero_smul _ _

theorem residue_eq_zero {n : ℕ} {bits : ℕ → Bool} (h : ∀ i < n, bits i = false) :
    residue f n bits = 0 :=
  residue_of_unset (Nat.zero_le n) fun i hi _ => h i hi

/-- Every residue is its own negative. -/
theorem add_self (x : AdjoinRoot f) : x + x = 0 := by
  have htwo : (2 : ZMod 2) = 0 := rfl
  rw [← two_smul (ZMod 2), htwo, zero_smul]

theorem sub_eq_add (x y : AdjoinRoot f) : x - y = x + y := by
  rw [sub_eq_iff_eq_add, add_assoc, add_self, add_zero]

theorem mk_eq_zero_of_eq {p : (ZMod 2)[X]} (h : f = p) : mk f p = 0 := by
  rw [← h, mk_self]

/-! ### Coordinates -/

noncomputable def polynomial (n : ℕ) (bits : ℕ → Bool) : (ZMod 2)[X] :=
  ∑ i ∈ Finset.range n, monomial i (coefficient (bits i))

theorem residue_eq_mk (n : ℕ) (bits : ℕ → Bool) : residue f n bits = mk f (polynomial n bits) := by
  simp only [residue, polynomial, map_sum, ← C_mul_X_pow_eq_monomial, ← smul_eq_C_mul, ← smul_mk,
    map_pow, mk_X]

theorem coeff_polynomial {n : ℕ} (bits : ℕ → Bool) {i : ℕ} (hi : i < n) :
    (polynomial n bits).coeff i = coefficient (bits i) := by
  rw [polynomial, finsetSum_coeff]
  simp only [coeff_monomial, Finset.sum_ite_eq', Finset.mem_range, hi, if_true]

/-- A polynomial with `n` coefficients has a degree below `n`. -/
theorem degree_polynomial_lt (n : ℕ) (bits : ℕ → Bool) : (polynomial n bits).degree < n := by
  refine (degree_sum_le _ _).trans_lt ?_
  refine (Finset.sup_lt_iff (WithBot.bot_lt_coe n)).2 fun i hi => ?_
  refine (degree_monomial_le _ _).trans_lt ?_
  exact WithBot.coe_lt_coe.2 (Finset.mem_range.1 hi)

/-- The polynomial of least degree in a residue is the one with the bits that it was made from. -/
theorem modByMonicHom_residue (hmonic : f.Monic) (bits : ℕ → Bool) :
    modByMonicHom hmonic (residue f f.natDegree bits) = polynomial f.natDegree bits := by
  have hdegree : (polynomial f.natDegree bits).degree < f.degree := by
    rw [degree_eq_natDegree hmonic.ne_zero]
    exact degree_polynomial_lt _ _
  rw [residue_eq_mk, modByMonicHom_mk, (modByMonic_eq_self_iff hmonic).2 hdegree]

/-- Below the degree of the modulus the coefficients of a residue are the bits it was made from. -/
theorem coeff_residue (hmonic : f.Monic) (bits : ℕ → Bool) {i : ℕ} (hi : i < f.natDegree) :
    (modByMonicHom hmonic (residue f f.natDegree bits)).coeff i = coefficient (bits i) := by
  rw [modByMonicHom_residue, coeff_polynomial _ hi]

theorem residue_injective (hmonic : f.Monic) {bits bits' : ℕ → Bool}
    (h : residue f f.natDegree bits = residue f f.natDegree bits') :
    ∀ i < f.natDegree, bits i = bits' i := by
  intro i hi
  apply coefficient_injective
  rw [← coeff_residue hmonic bits hi, h, coeff_residue hmonic bits' hi]

/-- There are as many residues as bit strings as long as the degree. -/
theorem natCard_adjoinRoot (hmonic : f.Monic) : Nat.card (AdjoinRoot f) = 2 ^ f.natDegree := by
  have hfree := hmonic.free_adjoinRoot
  have hfinite := hmonic.finite_adjoinRoot
  have hrank : Module.finrank (ZMod 2) (AdjoinRoot f) = f.natDegree :=
    (powerBasis' hmonic).finrank
  rw [Module.natCard_eq_pow_finrank (K := ZMod 2), hrank, Nat.card_zmod]

/-! ### Irreducible moduli -/

/-- A polynomial of degree `2 ^ (k + 1)` is irreducible if squaring its root as often as that gives the
root back, and half as often changes it by a unit. -/
theorem irreducible_of_root {k : ℕ} (hdegree : f.natDegree = 2 ^ (k + 1))
    (hall : root f ^ 2 ^ 2 ^ (k + 1) = root f)
    (hhalf : IsUnit (root f ^ 2 ^ 2 ^ k - root f)) : Irreducible f := by
  have hpos : 0 < f.natDegree := by
    rw [hdegree]
    positivity
  have hne : f ≠ 0 := ne_zero_of_natDegree_gt hpos
  have hmk (n : ℕ) : mk f (X ^ 2 ^ n - X) = root f ^ 2 ^ n - root f := by
    rw [map_sub, map_pow, mk_X]
  obtain ⟨g, hg, hgf⟩ := WfDvdMonoid.exists_irreducible_factor
    (not_isUnit_of_natDegree_pos f hpos) hne
  have hdvd (n : ℕ) : g.natDegree ∣ n ↔ g ∣ X ^ 2 ^ n - X := by
    rw [hg.natDegree_dvd_iff_dvd_X_pow_card_pow_sub_X, Nat.card_zmod]
  -- The degree of a factor is a power of two, and not a smaller one than that of `f`.
  have hfactor : g.natDegree ∣ 2 ^ (k + 1) := by
    rw [hdvd]
    refine hgf.trans (mk_eq_zero.1 ?_)
    rw [hmk, hall, sub_self]
  have hlarge : ¬ g.natDegree ∣ 2 ^ k := by
    intro h
    obtain ⟨y, hy⟩ := hhalf.exists_right_inv
    obtain ⟨q, rfl⟩ := mk_surjective y
    rw [← hmk, ← map_mul, ← sub_eq_zero, ← map_one (mk f), ← map_sub, mk_eq_zero] at hy
    have hproduct : g ∣ (X ^ 2 ^ 2 ^ k - X) * q := ((hdvd _).1 h).mul_right q
    exact hg.not_dvd_one ((dvd_sub_right hproduct).1 (hgf.trans hy))
  obtain ⟨m, hm, hgm⟩ := (Nat.dvd_prime_pow Nat.prime_two).1 hfactor
  have hmk' : m = k + 1 := by
    by_contra hother
    exact hlarge (hgm ▸ pow_dvd_pow 2 (by omega))
  have hle : f.natDegree ≤ g.natDegree := by rw [hdegree, hgm, hmk']
  exact (associated_of_dvd_of_natDegree_le hgf hne hle).irreducible hg

section
variable {α : Type} {value : α → AdjoinRoot f} {square : α → α}

/-- Squaring `n` times raises to the power `2 ^ n`. -/
theorem value_iterate (hsquare : ∀ a, value (square a) = value a ^ 2) (n : ℕ) (a : α) :
    value (square^[n] a) = value a ^ 2 ^ n := by
  induction n generalizing a with
  | zero => rw [Function.iterate_zero_apply, pow_zero, pow_one]
  | succ n ih => rw [Function.iterate_succ_apply, ih, hsquare, ← pow_mul, ← pow_succ']

/-- The squarings may be done on representatives: `x` stands for the root and `half` for what half of
the squarings give. -/
theorem irreducible_of_squares (hsquare : ∀ a, value (square a) = value a ^ 2) {k : ℕ} {x half : α}
    (hdegree : f.natDegree = 2 ^ (k + 1)) (hx : value x = root f)
    (hfirst : square^[2 ^ k] x = half) (hsecond : square^[2 ^ k] half = x)
    (hunit : IsUnit (value half + root f)) : Irreducible f := by
  have hhalf : root f ^ 2 ^ 2 ^ k = value half := by
    rw [← hx, ← hfirst, value_iterate hsquare]
  apply irreducible_of_root hdegree
  · rw [pow_succ, pow_mul, pow_two, pow_mul, hhalf, ← value_iterate hsquare, hsecond, hx]
  · rwa [hhalf, sub_eq_add]

end

end TlsClient.BinaryField
