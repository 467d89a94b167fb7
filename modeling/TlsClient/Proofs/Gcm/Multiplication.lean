import TlsClient.Proofs.Gcm.Hash

/-!
Multiplication of blocks of 16 bytes, byte by byte. One step moves the bits of a block on by one place,
from each byte into the next one, and puts the reduction into the first byte if a bit falls out at the
end; that is multiplication by `t` (`element_shiftReduced`). One step for each bit of a factor gives the
product of elements (`element_product`), so that blocks are multiplied as polynomials are, modulo that
of the field. Main statement: `product_is_reduced`.
-/

namespace TlsClient.Gcm

open Polynomial BinaryField

/-! ### Blocks bit by bit -/

/-- The coefficient of `t^i` in a block: bit `7 - i % 8` of byte `i / 8`. -/
def bit (x : Octets 16) (i : ℕ) : Bool :=
  (x.toList.getD (i / 8) 0).toNat.testBit (7 - i % 8)

noncomputable def polynomialOf (x : Octets 16) : (ZMod 2)[X] :=
  BinaryField.polynomial 128 (bit x)

def element (x : Octets 16) : Element :=
  .ofBytes x.toList

def add (x y : Octets 16) : Octets 16 :=
  Vector.zipWith (· ^^^ ·) x y

def zeroBlock : Octets 16 :=
  Vector.replicate 16 0

def oneBlock : Octets 16 :=
  .ofBytes 16 [0x80]

def reductionBlock : Octets 16 :=
  .ofBytes 16 [0xe1]

def shiftBits (v : Octets 16) : Octets 16 :=
  Vector.ofFn fun j =>
    let before : UInt8 := if j.val = 0 then 0 else v.toList.getD (j - 1) 0
    v.toList.getD j 0 >>> 1 ||| before <<< 7

/-- Multiplies a block by `t`. -/
def shiftReduced (v : Octets 16) : Octets 16 :=
  -- The bit that falls out at the end was the coefficient of `t^127`.
  if bit v 127 then add (shiftBits v) reductionBlock else shiftBits v

/-- The product of two blocks: `y`, `t y`, `t^2 y` and so on are added up for the bits of `x` that are
set. -/
def product (x y : Octets 16) : Octets 16 :=
  let (sum, _) := (List.range 128).foldl
    (fun (sum, v) i => (if bit x i then add sum v else sum, shiftReduced v)) (zeroBlock, y)
  sum

variable {x y v : Octets 16}

theorem getMsbD_element {i : ℕ} (hi : i < 128) : (element x).getMsbD i = bit x i :=
  Element.getMsbD_ofBytes (Vector.length_toList).le hi

theorem element_eq {e : Element} (h : ∀ i < 128, bit x i = e.getMsbD i) : element x = e :=
  BitVec.eq_of_getMsbD_eq fun i hi => (getMsbD_element hi).trans (h i hi)

/-- A block is determined by its element. -/
theorem element_injective : Function.Injective element := by
  intro x y h
  refine Vector.toList_inj.1 (Element.ofBytes_injective ?_ ?_ h)
  · rw [Vector.length_toList, Vector.length_toList]
  · rw [Vector.length_toList]

theorem bit_add (i : ℕ) : bit (add x y) i = (bit x i ^^ bit y i) := by
  have hbyte : (add x y).toList.getD (i / 8) 0 =
      x.toList.getD (i / 8) 0 ^^^ y.toList.getD (i / 8) 0 := by
    by_cases hi : i / 8 < 16
    · simp [add, List.getD_eq_getElem?_getD, hi]
    · simp [not_lt.1 hi]
  rw [bit, hbyte, UInt8.toNat_xor, Nat.testBit_xor, bit, bit]

/-- Blocks are added byte by byte as elements are bit by bit. -/
theorem element_add (x y : Octets 16) : element (add x y) = element x ^^^ element y := by
  refine element_eq fun i hi => ?_
  rw [BitVec.getMsbD_xor, getMsbD_element hi, getMsbD_element hi, bit_add]

theorem element_zeroBlock : element zeroBlock = 0 := by
  decide

theorem element_oneBlock : element oneBlock = .one := by
  decide

theorem element_reductionBlock : element reductionBlock = reduction := by
  decide

/-! ### One step -/

/-- Shifting takes every bit from its left neighbour, and the first one from the byte before. -/
theorem testBit_shift (b before : UInt8) {k : ℕ} (hk : k < 8) :
    (b >>> 1 ||| before <<< 7).toNat.testBit k =
      if k = 7 then before.toNat.testBit 0 else b.toNat.testBit (k + 1) := by
  have hhigh : b.toNat.testBit 8 = false := Nat.testBit_lt_two_pow b.toNat_lt
  have hright : (b >>> 1).toNat.testBit k = b.toNat.testBit (k + 1) := by
    rw [UInt8.toNat_shiftRight, Nat.testBit_shiftRight, Nat.add_comm]
    rfl
  have hleft : (before <<< 7).toNat.testBit k = (decide (k = 7) && before.toNat.testBit 0) := by
    rw [UInt8.toNat_shiftLeft, Nat.testBit_mod_two_pow, Nat.testBit_shiftLeft]
    by_cases h : k = 7
    · simp [h]
    · have hlt : ¬ 7 ≤ k := by omega
      simp [h, hlt]
  rw [UInt8.toNat_or, Nat.testBit_or, hright, hleft]
  by_cases h : k = 7
  · subst h
    simp [hhigh]
  · simp [h]

/-- Each bit comes from its left neighbour, over the boundaries of the bytes. -/
theorem bit_shiftBits {i : ℕ} (hi : i < 128) :
    bit (shiftBits v) i = (decide (0 < i) && bit v (i - 1)) := by
  have hbyte : (shiftBits v).toList.getD (i / 8) 0 = v.toList.getD (i / 8) 0 >>> 1 |||
      (if i / 8 = 0 then 0 else v.toList.getD (i / 8 - 1) 0) <<< 7 := by
    have hplace : i / 8 < 16 := by omega
    simp [shiftBits, List.getD_eq_getElem?_getD, hplace]
  rw [bit, hbyte, testBit_shift _ _ (by omega)]
  by_cases hfirst : i % 8 = 0
  · -- The bit comes from the byte before, unless there is none.
    rw [if_pos (by omega)]
    by_cases hzero : i / 8 = 0
    · have hi : ¬ 0 < i := by omega
      simp [hzero, hi]
    · have hi : 0 < i := by omega
      have hplace : (i - 1) / 8 = i / 8 - 1 := by omega
      have hbit : 7 - (i - 1) % 8 = 0 := by omega
      simp [bit, hzero, hi, hplace, hbit]
  · have hi : 0 < i := by omega
    have hplace : (i - 1) / 8 = i / 8 := by omega
    have hbit : 7 - (i - 1) % 8 = 7 - i % 8 + 1 := by omega
    rw [if_neg (by omega), bit, hplace, hbit]
    simp [hi]

theorem element_shiftBits (v : Octets 16) : element (shiftBits v) = element v >>> 1 := by
  refine element_eq fun i hi => ?_
  rw [bit_shiftBits hi, BitVec.getMsbD_ushiftRight]
  by_cases h : i = 0
  · simp [h]
  · rw [getMsbD_element (by omega)]
    simp [h, hi, Nat.pos_of_ne_zero h]

/-- One step is multiplication by `t`: the reduction only touches the first byte. -/
theorem element_shiftReduced (v : Octets 16) : element (shiftReduced v) = timesT (element v) := by
  have hlast : (element v).getLsbD 0 = bit v 127 := by
    rw [← getMsbD_element (by decide)]
    simp [BitVec.getMsbD]
  rw [shiftReduced, timesT, hlast, ← element_shiftBits, ← element_reductionBlock]
  split
  · exact element_add _ _
  · rfl

/-! ### All steps -/

/-- The steps that are left from bit `128 - n` on add up what the bits of `x` that are left add up. -/
theorem element_foldl (n : ℕ) (hn : n ≤ 128) (sum v : Octets 16) :
    element ((List.range' (128 - n) n).foldl
      (fun (sum, v) i => (if bit x i then add sum v else sum, shiftReduced v)) (sum, v)).1 =
        mulBits (element x) n (element sum) (element v) := by
  -- `mulBits` counts the bits that are left, and the fold goes by the number of those that are done.
  induction n generalizing sum v with
  | zero => rfl
  | succ n ih =>
    have hnext : 128 - (n + 1) + 1 = 128 - n := by omega
    have hbit : (element x).getLsbD n = bit x (128 - (n + 1)) := by
      have hplace : 128 - 1 - (128 - (n + 1)) = n := by omega
      have hlt : 128 - (n + 1) < 128 := by omega
      rw [← getMsbD_element hlt, BitVec.getMsbD_eq_getLsbD, hplace, decide_eq_true hlt,
        Bool.true_and]
    rw [List.range'_succ, List.foldl_cons, hnext, ih (by omega), mulBits, element_shiftReduced, hbit]
    congr 1
    split
    · exact element_add _ _
    · rfl

/-- All 128 steps give the product of the two elements. -/
theorem element_product (x y : Octets 16) : element (product x y) = mul (element x) (element y) := by
  rw [mul, ← element_zeroBlock, ← element_foldl 128 le_rfl, ← List.range_eq_range']
  rfl

/-! ### The field -/

theorem residue_element (x : Octets 16) :
    (element x).residue = BinaryField.residue modulus 128 (bit x) :=
  residue_congr fun _ hi => getMsbD_element hi

/-- The polynomial of a block is the one of least degree in the residue of its element. -/
theorem modByMonicHom_element (x : Octets 16) :
    AdjoinRoot.modByMonicHom monic_modulus (element x).residue = polynomialOf x := by
  have h := modByMonicHom_residue monic_modulus (bit x)
  rwa [natDegree_modulus, ← residue_element] at h

theorem mk_polynomialOf (x : Octets 16) :
    AdjoinRoot.mk modulus (polynomialOf x) = (element x).residue := by
  rw [residue_element, residue_eq_mk, polynomialOf]

/-- The product of blocks is the product of their polynomials modulo that of the field. -/
theorem polynomialOf_product (x y : Octets 16) :
    polynomialOf (product x y) = polynomialOf x * polynomialOf y %ₘ modulus := by
  rw [← modByMonicHom_element, element_product, residue_mul, ← mk_polynomialOf, ← mk_polynomialOf,
    ← map_mul, AdjoinRoot.modByMonicHom_mk]

/-- Blocks are told apart by the residues of their elements. -/
theorem eq_iff_residue_eq (x y : Octets 16) : x = y ↔ (element x).residue = (element y).residue :=
  (residue_injective.comp element_injective).eq_iff.symm

/-- Blocks are multiplied byte by byte as their elements are, and as polynomials modulo the polynomial
of the field. So multiplication is commutative and associative and distributes over addition, the block
`80 00 .. 00` is its one, and a product is zero only if one of the factors is. -/
theorem product_is_reduced (x y z : Octets 16) :
    element (product x y) = mul (element x) (element y) ∧
    polynomialOf (product x y) = polynomialOf x * polynomialOf y %ₘ modulus ∧
    product x y = product y x ∧
    product (product x y) z = product x (product y z) ∧
    product x (add y z) = add (product x y) (product x z) ∧
    product (add x y) z = add (product x z) (product y z) ∧
    product oneBlock x = x ∧ product x oneBlock = x ∧
    (product x y = zeroBlock ↔ x = zeroBlock ∨ y = zeroBlock) := by
  have hproduct (x y : Octets 16) :
      (element (product x y)).residue = (element x).residue * (element y).residue := by
    rw [element_product, residue_mul]
  have hadd (x y : Octets 16) :
      (element (add x y)).residue = (element x).residue + (element y).residue := by
    rw [element_add, residue_xor]
  have hone : (element oneBlock).residue = 1 := by rw [element_oneBlock, Element.residue_one]
  have hzero : (element zeroBlock).residue = 0 := by rw [element_zeroBlock, residue_zero]
  refine ⟨element_product x y, polynomialOf_product x y, ?_, ?_, ?_, ?_, ?_, ?_, ?_⟩
  · rw [eq_iff_residue_eq, hproduct, hproduct, mul_comm]
  · rw [eq_iff_residue_eq, hproduct, hproduct, hproduct, hproduct, mul_assoc]
  · rw [eq_iff_residue_eq, hproduct, hadd, hadd, hproduct, hproduct, mul_add]
  · rw [eq_iff_residue_eq, hproduct, hadd, hadd, hproduct, hproduct, add_mul]
  · rw [eq_iff_residue_eq, hproduct, hone, one_mul]
  · rw [eq_iff_residue_eq, hproduct, hone, mul_one]
  · -- The residues are a field, in which there are no divisors of zero.
    rw [eq_iff_residue_eq, eq_iff_residue_eq x, eq_iff_residue_eq y, hproduct, hzero, mul_eq_zero]

end TlsClient.Gcm
