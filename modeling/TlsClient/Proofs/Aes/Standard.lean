import Mathlib.Data.Matrix.Mul
import Mathlib.LinearAlgebra.Matrix.Notation
import TlsClient.Proofs.Aes.Field

/-!
AES-128 as FIPS 197 defines it, over the field of 256 elements: substitution by the inverse and an
affine map, mixing of columns as a product of matrices, and the key schedule as a recurrence on words of
four bytes. The cipher computes that function (`encrypt_standard`): every layer, written on states of
four by four bytes, is the one of the standard.
-/

namespace TlsClient.Aes

open Polynomial AdjoinRoot BinaryField

/-! ### The standard -/

namespace Standard

abbrev State := Matrix (Fin 4) (Fin 4) ByteField

abbrev Word := Fin 4 → ByteField

noncomputable def bit (y : ByteField) (i : ℕ) : ZMod 2 :=
  (modByMonicHom monic_modulus y).coeff i

/-- Bit `i` is added to the four bits that come four to seven places after it, in a circle, and to bit
`i` of the constant. -/
noncomputable def affine (y : ByteField) : ByteField :=
  mk modulus (∑ i ∈ Finset.range 8, monomial i (bit y i + bit y ((i + 4) % 8) +
    bit y ((i + 5) % 8) + bit y ((i + 6) % 8) + bit y ((i + 7) % 8) +
    coefficient (Nat.testBit 0x63 i)))

noncomputable def sBox (y : ByteField) : ByteField :=
  affine y⁻¹

noncomputable def subBytes (s : State) : State :=
  s.map sBox

def shiftRows (s : State) : State :=
  .of fun r c => s r (c + r)

noncomputable def mixMatrix : State :=
  !![root modulus, root modulus + 1, 1, 1;
    1, root modulus, root modulus + 1, 1;
    1, 1, root modulus, root modulus + 1;
    root modulus + 1, 1, 1, root modulus]

noncomputable def mixColumns (s : State) : State :=
  mixMatrix * s

def rotWord (w : Word) : Word :=
  fun r => w (r + 1)

noncomputable def subWord (w : Word) : Word :=
  fun r => sBox (w r)

/-- The round constant of round `j`, from one on. -/
noncomputable def rcon (j : ℕ) : Word :=
  ![root modulus ^ (j - 1), 0, 0, 0]

noncomputable def word (key : State) (i : ℕ) : Word :=
  if h : i < 4 then fun r => key r ⟨i, h⟩
  else if i % 4 = 0 then
    word key (i - 4) + (subWord (rotWord (word key (i - 1))) + rcon (i / 4))
  else word key (i - 4) + word key (i - 1)
termination_by i

noncomputable def roundKey (key : State) (j : ℕ) : State :=
  .of fun r c => word key (4 * j + c) r

noncomputable def round (s k : State) : State :=
  mixColumns (shiftRows (subBytes s)) + k

/-- A round key is added, nine rounds follow, and the tenth does not mix the columns. -/
noncomputable def cipher (key s : State) : State :=
  shiftRows (subBytes (((List.range' 1 9).map (roundKey key)).foldl round (s + roundKey key 0))) +
    roundKey key 10

end Standard

open Standard

/-! ### The substitution -/

theorem bit_residue (b : UInt8) {i : ℕ} (hi : i < 8) :
    bit (residue b) i = coefficient (b.toBitVec.getLsbD i) := by
  have h := coeff_residue monic_modulus b.toBitVec.getLsbD (natDegree_modulus ▸ hi)
  rwa [natDegree_modulus] at h

def unaffine (b : UInt8) : UInt8 :=
  (b <<< 1 ||| b >>> 7) ^^^ (b <<< 3 ||| b >>> 5) ^^^ (b <<< 6 ||| b >>> 2) ^^^ 0x05

theorem bits_unaffine (b : UInt8) : ∀ i < 8, b.toBitVec.getLsbD i =
    ((unaffine b).toBitVec.getLsbD i ^^ (unaffine b).toBitVec.getLsbD ((i + 4) % 8) ^^
      (unaffine b).toBitVec.getLsbD ((i + 5) % 8) ^^ (unaffine b).toBitVec.getLsbD ((i + 6) % 8) ^^
      (unaffine b).toBitVec.getLsbD ((i + 7) % 8) ^^ Nat.testBit 0x63 i) := by
  revert b
  apply forall_byte
  decide +kernel

/-- The affine map has an inverse, so it is enough to compare substitutions after it was taken off.
-/
theorem affine_residue (b : UInt8) : affine (residue (unaffine b)) = residue b := by
  have hmod (j : ℕ) : j % 8 < 8 := Nat.mod_lt j (by decide)
  refine Eq.trans ?_ (residue_eq_mk 8 b.toBitVec.getLsbD).symm
  refine congrArg (mk modulus) (Finset.sum_congr rfl fun i hi => ?_)
  have hlt := Finset.mem_range.1 hi
  rw [bit_residue _ hlt, bit_residue _ (hmod _), bit_residue _ (hmod _), bit_residue _ (hmod _),
    bit_residue _ (hmod _), bits_unaffine b i hlt]
  simp only [coefficient_xor, add_assoc]

/-- Behind the affine map the table has the inverse of each byte, and zero for zero. -/
theorem mul_unaffine_sub (b : UInt8) :
    if b = 0 then unaffine (sub b) = 0 else mul b (unaffine (sub b)) = 1 := by
  revert b
  apply forall_byte
  decide +kernel

/-- The table is the substitution that the standard defines. -/
theorem sBox_residue (b : UInt8) : sBox (residue b) = residue (sub b) := by
  -- The table cannot be read as a formula, but without the affine map it has to be the inverse.
  have hinverse : (residue b)⁻¹ = residue (unaffine (sub b)) := by
    have h := mul_unaffine_sub b
    split at h
    · rename_i hb
      rw [h, hb, residue_zero, inv_zero]
    · apply inv_eq_of_mul_eq_one_right
      rw [← residue_mul, h, residue_one]
  rw [sBox, hinverse, affine_residue]

/-! ### Columns -/

namespace Column

noncomputable def vector (x : Column) : Word :=
  ![residue x.b0, residue x.b1, residue x.b2, residue x.b3]

theorem vector_injective : Function.Injective vector := by
  intro x y h
  have hbyte (r : Fin 4) := congrFun h r
  obtain ⟨x0, x1, x2, x3⟩ := x
  rw [Column.mk.injEq]
  exact ⟨residue_injective (hbyte 0), residue_injective (hbyte 1), residue_injective (hbyte 2),
    residue_injective (hbyte 3)⟩

theorem vector_xor (x y : Column) : (x.xor y).vector = x.vector + y.vector := by
  ext r
  fin_cases r <;> exact residue_xor _ _

theorem vector_map_sub (x : Column) : (x.map sub).vector = subWord x.vector := by
  ext r
  fin_cases r <;> exact (sBox_residue _).symm

theorem vector_rotate (x : Column) : x.rotate.vector = rotWord x.vector := by
  ext r
  fin_cases r <;> rfl

/-- Mixing a column multiplies it by the matrix of the standard. -/
theorem vector_mix (x : Column) : x.mix.vector = mixMatrix.mulVec x.vector := by
  ext r
  fin_cases r <;>
    simp [vector, mix, mixMatrix, Matrix.mulVec, dotProduct, Fin.sum_univ_succ, residue_xor,
      residue_double] <;>
    ring

end Column

/-! ### States -/

/-- The state that a block stands for: byte `r + 4 * c` is in row `r` of column `c`. -/
noncomputable def stateOf (s : Block) : Standard.State :=
  .of fun r c => residue (s.toBytes.getD (r + 4 * c) 0)

namespace Block

def column (s : Block) : Fin 4 → Column :=
  ![s.c0, s.c1, s.c2, s.c3]

theorem column_xor (s t : Block) (c : Fin 4) : (s.xor t).column c = (s.column c).xor (t.column c) := by
  fin_cases c <;> rfl

theorem column_shiftRows (s : Block) (c : Fin 4) : s.shiftRows.column c =
    ⟨(s.column c).b0, (s.column (c + 1)).b1, (s.column (c + 2)).b2, (s.column (c + 3)).b3⟩ := by
  fin_cases c <;> rfl

theorem column_mapColumns (f : Column → Column) (s : Block) (c : Fin 4) :
    (s.mapColumns f).column c = f (s.column c) := by
  fin_cases c <;> rfl

end Block

theorem stateOf_apply (s : Block) (r c : Fin 4) : stateOf s r c = (s.column c).vector r := by
  fin_cases r <;> fin_cases c <;> rfl

/-- Blocks and states are the same thing written in two ways. -/
theorem stateOf_bijective : Function.Bijective stateOf := by
  constructor
  · intro s t h
    have hcolumn (c : Fin 4) : s.column c = t.column c := by
      apply Column.vector_injective
      ext r
      rw [← stateOf_apply, ← stateOf_apply, h]
    obtain ⟨s0, s1, s2, s3⟩ := s
    rw [Block.mk.injEq]
    exact ⟨hcolumn 0, hcolumn 1, hcolumn 2, hcolumn 3⟩
  · intro m
    choose byte hbyte using residue_bijective.2
    let column (c : Fin 4) : Column :=
      ⟨byte (m 0 c), byte (m 1 c), byte (m 2 c), byte (m 3 c)⟩
    refine ⟨⟨column 0, column 1, column 2, column 3⟩, ?_⟩
    ext r c
    rw [stateOf_apply]
    fin_cases r <;> fin_cases c <;> exact hbyte _

theorem stateOf_xor (s t : Block) : stateOf (s.xor t) = stateOf s + stateOf t := by
  ext r c
  rw [Matrix.add_apply, stateOf_apply, stateOf_apply, stateOf_apply, Block.column_xor,
    Column.vector_xor, Pi.add_apply]

theorem stateOf_subBytes (s : Block) : stateOf s.subBytes = subBytes (stateOf s) := by
  ext r c
  rw [subBytes, Matrix.map_apply, stateOf_apply, stateOf_apply, Block.subBytes,
    Block.column_mapColumns, Column.vector_map_sub, subWord]

theorem stateOf_shiftRows (s : Block) : stateOf s.shiftRows = shiftRows (stateOf s) := by
  ext r c
  rw [shiftRows, Matrix.of_apply, stateOf_apply, stateOf_apply, Block.column_shiftRows]
  fin_cases r <;> simp [Column.vector]

theorem stateOf_mixColumns (s : Block) : stateOf s.mixColumns = mixColumns (stateOf s) := by
  ext r c
  rw [stateOf_apply, Block.mixColumns, Block.column_mapColumns, Column.vector_mix, mixColumns,
    Matrix.mul_apply, Matrix.mulVec, dotProduct]
  simp only [stateOf_apply]

/-- One round of the cipher is one round of the standard. -/
theorem stateOf_round (s k : Block) :
    stateOf (s.subBytes.shiftRows.mixColumns.xor k) = Standard.round (stateOf s) (stateOf k) := by
  rw [stateOf_xor, stateOf_mixColumns, stateOf_shiftRows, stateOf_subBytes, Standard.round]

/-! ### The key schedule -/

theorem word_add_four (key : Standard.State) (i : ℕ) :
    word key (i + 4) = if i % 4 = 0 then
      word key i + (subWord (rotWord (word key (i + 3))) + rcon (i / 4 + 1))
    else word key i + word key (i + 3) := by
  rw [word]
  simp

/-- A round key of the standard is four words of its schedule as columns. -/
theorem stateOf_eq_roundKey {key : Standard.State} {k : Block} {j : ℕ} : stateOf k = roundKey key j ↔
    ∀ c : Fin 4, (k.column c).vector = word key (4 * j + c) := by
  constructor
  · intro h c
    ext r
    rw [← stateOf_apply, h, roundKey, Matrix.of_apply]
  · intro h
    ext r c
    rw [stateOf_apply, h, roundKey, Matrix.of_apply]

theorem stateOf_roundKey_zero (key : Block) : stateOf key = roundKey (stateOf key) 0 := by
  refine stateOf_eq_roundKey.2 fun c => ?_
  ext r
  rw [word]
  simp [stateOf_apply]

theorem vector_constant {j : ℕ} {constant : UInt8} (h : residue constant = root modulus ^ j) :
    (⟨constant, 0, 0, 0⟩ : Column).vector = rcon (j + 1) := by
  rw [Column.vector, h, residue_zero, rcon, Nat.add_sub_cancel]

/-- The next round key follows from the last one as the recurrence on words says. -/
theorem stateOf_nextRoundKey {key : Standard.State} {k : Block} {j : ℕ} {constant : UInt8}
    (hk : stateOf k = roundKey key j) (hconstant : residue constant = root modulus ^ j) :
    stateOf (nextRoundKey constant k) = roundKey key (j + 1) := by
  have hcolumn := stateOf_eq_roundKey.1 hk
  have h0 : (nextRoundKey constant k).c0.vector = word key (4 * j + 4) := by
    rw [word_add_four, if_pos (by omega), Nat.mul_div_cancel_left j (by decide),
      ← vector_constant hconstant]
    have hold : k.c0.vector = word key (4 * j) := hcolumn 0
    have hlast : k.c3.vector = word key (4 * j + 3) := hcolumn 3
    rw [← hold, ← hlast, ← Column.vector_rotate, ← Column.vector_map_sub, ← Column.vector_xor,
      ← Column.vector_xor]
    rfl
  -- The other words are the old ones with the word before them added.
  have hnext {i : ℕ} {x y : Column} (hi : (4 * j + i) % 4 ≠ 0)
      (hx : x.vector = word key (4 * j + i)) (hy : y.vector = word key (4 * j + i + 3)) :
      (x.xor y).vector = word key (4 * j + i + 4) := by
    rw [word_add_four, if_neg hi, Column.vector_xor, hx, hy]
  have h1 : (nextRoundKey constant k).c1.vector = word key (4 * j + 5) :=
    hnext (by omega) (hcolumn 1) h0
  have h2 : (nextRoundKey constant k).c2.vector = word key (4 * j + 6) :=
    hnext (by omega) (hcolumn 2) h1
  have h3 : (nextRoundKey constant k).c3.vector = word key (4 * j + 7) :=
    hnext (by omega) (hcolumn 3) h2
  refine stateOf_eq_roundKey.2 fun c => ?_
  fin_cases c
  · exact h0
  · exact h1
  · exact h2
  · exact h3

/-- By induction all round keys are those of the standard. -/
theorem map_roundKeysAfter {key : Standard.State} {k : Block} {j : ℕ} {constants : List UInt8}
    (hk : stateOf k = roundKey key j)
    (hconstants : constants.map residue = (List.range' j constants.length).map (root modulus ^ ·)) :
    (roundKeysAfter k constants).map stateOf =
      (List.range' (j + 1) constants.length).map (roundKey key) := by
  induction constants generalizing k j with
  | nil => rfl
  | cons constant constants ih =>
    rw [List.length_cons, List.range'_succ, List.map_cons, List.map_cons, List.cons.injEq]
      at hconstants
    have hnext := stateOf_nextRoundKey hk hconstants.1
    rw [roundKeysAfter, List.map_cons, ih hnext hconstants.2, hnext, List.length_cons,
      List.range'_succ, List.map_cons]

theorem residue_iterate_double (b : UInt8) (i : ℕ) :
    residue (double^[i] b) = root modulus ^ i * residue b := by
  induction i with
  | zero => simp
  | succ i ih => rw [Function.iterate_succ_apply', residue_double, ih, pow_succ', mul_assoc]

/-- The table of round constants has the powers of `x`. -/
theorem map_roundConstants :
    roundConstants.map residue = (List.range' 0 10).map (root modulus ^ ·) := by
  have hdouble : roundConstants = (List.range' 0 10).map (double^[·] 1) := by decide
  rw [hdouble, List.map_map]
  refine List.map_congr_left fun i _ => ?_
  rw [Function.comp_apply, residue_iterate_double, residue_one, mul_one]

theorem map_rounds (key : Block) :
    (RoundKeys.ofKey key).rounds.map stateOf = (List.range' 1 10).map (roundKey (stateOf key)) :=
  map_roundKeysAfter (stateOf_roundKey_zero key) map_roundConstants

/-! ### The cipher -/

theorem encryptRounds_append (keys : List Block) (k s : Block) :
    encryptRounds (keys ++ [k]) s =
      (keys.foldl (fun s k => s.subBytes.shiftRows.mixColumns.xor k) s).subBytes.shiftRows.xor k := by
  induction keys generalizing s with
  | nil => rfl
  | cons k' keys ih =>
    rw [List.cons_append, encryptRounds, ih, List.foldl_cons]
    simp

/-- All rounds but the last one agree, as each of them does. -/
theorem stateOf_rounds (keys : List Block) (s : Block) :
    stateOf (keys.foldl (fun s k => s.subBytes.shiftRows.mixColumns.xor k) s) =
      (keys.map stateOf).foldl Standard.round (stateOf s) := by
  rw [List.foldl_map]
  exact (List.foldl_hom stateOf fun s k => (stateOf_round s k).symm).symm

/-- Blocks are the states of the standard, and encryption is its cipher. -/
theorem encrypt_standard : Function.Bijective stateOf ∧ ∀ key s : Block,
    stateOf ((RoundKeys.ofKey key).encrypt s) = Standard.cipher (stateOf key) (stateOf s) := by
  refine ⟨stateOf_bijective, fun key s => ?_⟩
  -- The tenth key is split off, because its round is the one that does not mix.
  have hlast : List.range' 1 10 = List.range' 1 9 ++ [10] := List.range'_1_concat
  have hrounds := map_rounds key
  rw [hlast, List.map_append, List.map_singleton, List.map_eq_append_iff] at hrounds
  obtain ⟨keys, lastKeys, hsplit, hkeys, hlastKeys⟩ := hrounds
  obtain ⟨k, rfl, hk⟩ := List.map_eq_singleton_iff.1 hlastKeys
  have hwhitening : stateOf (RoundKeys.ofKey key).whitening = roundKey (stateOf key) 0 :=
    stateOf_roundKey_zero key
  rw [RoundKeys.encrypt, hsplit, encryptRounds_append, stateOf_xor, stateOf_shiftRows,
    stateOf_subBytes, stateOf_rounds, stateOf_xor, hwhitening, hkeys, hk, Standard.cipher]

end TlsClient.Aes
