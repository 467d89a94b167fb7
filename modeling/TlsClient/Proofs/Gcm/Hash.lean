import TlsClient.Gcm.Hash
import TlsClient.Proofs.Bytes
import TlsClient.Proofs.Gcm.Field

namespace TlsClient.Gcm

open BinaryField

/-- The residue that a string of at most 16 bytes stands for: bit `7 - i % 8` of byte `i / 8` is the
coefficient of `t^i`. Missing bytes are zero. -/
noncomputable def residueOf (bs : Bytes) : BlockField :=
  BinaryField.residue modulus 128 fun i => (bs.getD (i / 8) 0).toNat.testBit (7 - i % 8)

namespace Element

theorem toNat_ofBytes {bs : Bytes} (h : bs.length ≤ 16) :
    (ofBytes bs).toNat = Bytes.toNat (bs ++ List.replicate (16 - bs.length) 0) := by
  have hlength : (bs ++ List.replicate (16 - bs.length) (0 : UInt8)).length = 16 := by
    rw [List.length_append, List.length_replicate]
    omega
  have hlt := Bytes.toNat_lt_of_length hlength
  rw [Bytes.toNat_append, Bytes.toNat_replicate_zero, List.length_replicate] at hlt ⊢
  have hpow : (2 : ℕ) ^ (8 * (16 - bs.length)) = 256 ^ (16 - bs.length) := pow_mul 2 8 _
  rw [ofBytes, BitVec.toNat_ofNat, Nat.shiftLeft_eq, hpow, mul_comm]
  exact Nat.mod_eq_of_lt hlt

theorem toBytes_ofBytes {bs : Bytes} (h : bs.length ≤ 16) :
    (ofBytes bs).toBytes = bs ++ List.replicate (16 - bs.length) 0 := by
  rw [toBytes, toNat_ofBytes h]
  refine Bytes.ofNat_toNat_of_length ?_
  rw [List.length_append, List.length_replicate]
  omega

theorem toBytes_injective : Function.Injective toBytes := by
  intro x y h
  exact BitVec.eq_of_toNat_eq (Bytes.ofNat_injective x.isLt y.isLt h)

theorem ofBytes_toBytes (x : Element) : ofBytes x.toBytes = x := by
  have hlength : x.toBytes.length = 16 := Bytes.length_ofNat _ _
  apply toBytes_injective
  rw [toBytes_ofBytes hlength.le, hlength, Nat.sub_self, List.replicate_zero, List.append_nil]

/-- Zeros at the end of a block are what missing bytes stand for. -/
theorem ofBytes_append_zeros {bs : Bytes} {n : ℕ} (h : bs.length + n ≤ 16) :
    ofBytes (bs ++ List.replicate n 0) = ofBytes bs := by
  have hlength : (bs ++ List.replicate n (0 : UInt8)).length = bs.length + n := by simp
  apply toBytes_injective
  rw [toBytes_ofBytes (hlength.trans_le h), toBytes_ofBytes (by omega), hlength, List.append_assoc,
    List.replicate_append_replicate]
  congr 2
  omega

/-- Two blocks of the same length are not taken for each other. -/
theorem ofBytes_injective {a b : Bytes} (hlength : a.length = b.length) (ha : a.length ≤ 16)
    (h : ofBytes a = ofBytes b) : a = b := by
  have hbytes := congrArg toBytes h
  rw [toBytes_ofBytes ha, toBytes_ofBytes (hlength ▸ ha)] at hbytes
  exact List.append_inj_left hbytes hlength

/-- The bits of an element are those of its bytes, each from the highest one on. -/
theorem getMsbD_ofBytes {bs : Bytes} (h : bs.length ≤ 16) {i : ℕ} (hi : i < 128) :
    (ofBytes bs).getMsbD i = (bs.getD (i / 8) 0).toNat.testBit (7 - i % 8) := by
  have hlength : (bs ++ List.replicate (16 - bs.length) (0 : UInt8)).length = 16 := by
    rw [List.length_append, List.length_replicate]
    omega
  have hplace : 16 - 1 - (127 - i) / 8 = i / 8 := by omega
  have hbit : (127 - i) % 8 = 7 - i % 8 := by omega
  have hbyte : (bs ++ List.replicate (16 - bs.length) 0).getD (i / 8) 0 = bs.getD (i / 8) 0 := by
    by_cases hi : i / 8 < bs.length
    · exact List.getD_append _ _ _ _ hi
    · rw [List.getD_append_right _ _ _ _ (not_lt.1 hi), List.getD_eq_getElem?_getD,
        List.getElem?_getD_replicate_default_eq, List.getD_eq_default _ _ (not_lt.1 hi)]
  have hread := Bytes.testBit_toNat (bs ++ List.replicate (16 - bs.length) 0) (127 - i) (by omega)
  rw [hlength, hplace, hbit, hbyte] at hread
  rw [← hread, ← toNat_ofBytes h]
  simp [BitVec.getMsbD, BitVec.getLsbD, hi]

/-- Bytes that are read as an element keep their coefficients. -/
theorem residue_ofBytes {bs : Bytes} (h : bs.length ≤ 16) : (ofBytes bs).residue = residueOf bs :=
  residue_congr fun _ hi => getMsbD_ofBytes h hi

theorem residue_eq_residueOf (x : Element) : x.residue = residueOf x.toBytes := by
  have hlength : x.toBytes.length = 16 := Bytes.length_ofNat _ _
  rw [← residue_ofBytes hlength.le, ofBytes_toBytes]

end Element

def padded (bs : Bytes) : Bytes :=
  bs ++ List.replicate ((16 - bs.length % 16) % 16) 0

/-- What is hashed: both parts, each filled up, and then the number of bits of each in 64 bits. -/
def hashedString (aad ciphertext : Bytes) : Bytes :=
  padded aad ++ padded ciphertext ++
    (Bytes.ofNat 8 (8 * aad.length) ++ Bytes.ofNat 8 (8 * ciphertext.length))

def hashedBlocks (aad ciphertext : Bytes) : List Bytes :=
  Bytes.chunks 16 (hashedString aad ciphertext)

theorem length_padded (bs : Bytes) :
    (padded bs).length = bs.length + (16 - bs.length % 16) % 16 := by
  rw [padded, List.length_append, List.length_replicate]

theorem dvd_length_padded (bs : Bytes) : 16 ∣ (padded bs).length := by
  rw [length_padded]
  omega

theorem dvd_length_hashedString (aad ciphertext : Bytes) :
    16 ∣ (hashedString aad ciphertext).length := by
  have haad := dvd_length_padded aad
  have hciphertext := dvd_length_padded ciphertext
  simp only [hashedString, List.length_append, Bytes.length_ofNat]
  omega

/-- Whole blocks in front do not move the boundaries of the blocks behind them. -/
theorem elements_append {a b : Bytes} (h : 16 ∣ a.length) :
    elements (a ++ b) = elements a ++ elements b := by
  rw [elements, Bytes.chunks_append (by decide) _ _ h, List.map_append, elements, elements]

theorem elements_of_length_le {bs : Bytes} (hne : bs ≠ []) (h : bs.length ≤ 16) :
    elements bs = [Element.ofBytes bs] := by
  rw [elements, Bytes.chunks_of_length_le hne h, List.map_singleton]

/-- Filling up the last block does not change the element that it stands for. -/
theorem elements_padded (bs : Bytes) : elements (padded bs) = elements bs := by
  have hdvd : 16 ∣ (bs.take (16 * (bs.length / 16))).length := by
    rw [List.length_take]
    omega
  have hrest : (bs.drop (16 * (bs.length / 16))).length = bs.length % 16 := by
    rw [List.length_drop]
    omega
  have hsplit := List.take_append_drop (16 * (bs.length / 16)) bs
  generalize bs.take (16 * (bs.length / 16)) = whole at hdvd hsplit
  generalize bs.drop (16 * (bs.length / 16)) = rest at hrest hsplit
  rw [padded, ← hrest, ← hsplit, List.append_assoc, elements_append hdvd, elements_append hdvd]
  congr 1
  by_cases hnil : rest = []
  · simp [hnil]
  · have hpos := List.length_pos_iff.2 hnil
    have hfill : (16 - rest.length) % 16 = 16 - rest.length := Nat.mod_eq_of_lt (by omega)
    rw [hfill, elements_of_length_le hnil (by omega), elements_of_length_le (by simp [hnil])
      (by rw [List.length_append, List.length_replicate]; omega),
      Element.ofBytes_append_zeros (by omega)]

/-- What the hash runs over are the blocks of one string, made from the additional data, the
ciphertext and their lengths. -/
theorem hashInput_eq (aad ciphertext : Bytes) :
    hashInput aad ciphertext = (hashedBlocks aad ciphertext).map Element.ofBytes := by
  have hlengths : (Bytes.ofNat 8 (8 * aad.length) ++ Bytes.ofNat 8 (8 * ciphertext.length)).length =
      16 := by
    rw [List.length_append, Bytes.length_ofNat, Bytes.length_ofNat]
  have hparts : 16 ∣ (padded aad ++ padded ciphertext).length := by
    rw [List.length_append]
    exact Nat.dvd_add (dvd_length_padded aad) (dvd_length_padded ciphertext)
  have hlast := elements_of_length_le (List.ne_nil_of_length_eq_add_one hlengths) hlengths.le
  have hall : elements (hashedString aad ciphertext) = hashInput aad ciphertext := by
    rw [hashedString, elements_append hparts, elements_append (dvd_length_padded aad),
      elements_padded, elements_padded, hlast, hashInput, lengthElement]
  exact hall.symm

/-- Horner's rule. -/
theorem residue_foldl {β : Type} (f : β → Element) (h : Element) (bs : List β) (y : Element) :
    (bs.foldl (fun y b => mul (y ^^^ f b) h) y).residue = y.residue * h.residue ^ bs.length +
      ∑ i : Fin bs.length, (f bs[i]).residue * h.residue ^ (bs.length - i) := by
  induction bs generalizing y with
  | nil => simp
  | cons b bs ih =>
    rw [List.foldl_cons, ih, residue_mul, residue_xor]
    simp only [List.length_cons, Fin.sum_univ_succ]
    simp [pow_succ]
    ring

/-- Filling up loses nothing but the length, which is hashed as well. -/
theorem eq_of_padded {a b : Bytes} (hlength : a.length = b.length) (h : padded a = padded b) :
    a = b :=
  List.append_inj_left h hlength

/-- The block of the lengths tells where the parts end and how much was filled up. -/
theorem eq_of_hashedString {aad ciphertext aad' ciphertext' : Bytes} (haad : aad.length < 2 ^ 61)
    (hciphertext : ciphertext.length < 2 ^ 61) (haad' : aad'.length < 2 ^ 61)
    (hciphertext' : ciphertext'.length < 2 ^ 61)
    (h : hashedString aad ciphertext = hashedString aad' ciphertext') :
    aad = aad' ∧ ciphertext = ciphertext' := by
  have hbits {m n : ℕ} (hm : m < 2 ^ 61) (hn : n < 2 ^ 61)
      (heq : Bytes.ofNat 8 (8 * m) = Bytes.ofNat 8 (8 * n)) : m = n := by
    have hmn : 8 * m = 8 * n := Bytes.ofNat_injective (by omega) (by omega) heq
    omega
  obtain ⟨hparts, hlengths⟩ := List.append_inj' h (by simp)
  have hm := hbits haad haad' (List.append_inj_left hlengths (by simp))
  have hn := hbits hciphertext hciphertext' (List.append_inj_right hlengths (by simp))
  have hfirst : (padded aad).length = (padded aad').length := by
    rw [length_padded, length_padded, hm]
  obtain ⟨hfilled, hfilled'⟩ := List.append_inj hparts hfirst
  exact ⟨eq_of_padded hm hfilled, eq_of_padded hn hfilled'⟩

/-- The hash is the polynomial that has the blocks as its coefficients, evaluated at the key: the `i`th
of `m` blocks, from zero on, is a factor of the power `m - i`. Below `2 ^ 61` bytes no two pairs of
strings have the same blocks. -/
theorem hash_is_polynomial (h : Element) (aad ciphertext : Bytes) :
    residueOf (hash h aad ciphertext).toBytes =
      ∑ i : Fin (hashedBlocks aad ciphertext).length, residueOf (hashedBlocks aad ciphertext)[i] *
        residueOf h.toBytes ^ ((hashedBlocks aad ciphertext).length - i) ∧
    ∀ aad' ciphertext', aad.length < 2 ^ 61 → ciphertext.length < 2 ^ 61 → aad'.length < 2 ^ 61 →
      ciphertext'.length < 2 ^ 61 →
      (hashedBlocks aad ciphertext = hashedBlocks aad' ciphertext' ↔
        aad = aad' ∧ ciphertext = ciphertext') := by
  constructor
  · have hwhole (i : Fin (hashedBlocks aad ciphertext).length) :
        (hashedBlocks aad ciphertext)[i].length = 16 :=
      Bytes.length_of_mem_chunks (by decide) (dvd_length_hashedString aad ciphertext)
        (List.getElem_mem i.isLt)
    rw [← Element.residue_eq_residueOf, ← Element.residue_eq_residueOf, hash, hashInput_eq,
      List.foldl_map, residue_foldl, residue_zero, zero_mul, zero_add]
    refine Finset.sum_congr rfl fun i _ => ?_
    rw [Element.residue_ofBytes (hwhole i).le]
  · intro aad' ciphertext' haad hciphertext haad' hciphertext'
    refine ⟨fun hblocks => ?_, fun ⟨hm, hn⟩ => by rw [hm, hn]⟩
    have hstrings := congrArg List.flatten hblocks
    rw [hashedBlocks, hashedBlocks, Bytes.flatten_chunks (by decide),
      Bytes.flatten_chunks (by decide)] at hstrings
    exact eq_of_hashedString haad hciphertext haad' hciphertext' hstrings

/-- Two strings that are filled up to one block are told apart by their lengths. -/
theorem hashedBlocks_of_zeros :
    padded [0] = padded [0, 0] ∧ hashedBlocks [0] [] ≠ hashedBlocks [0, 0] [] := by
  refine ⟨rfl, fun h => ?_⟩
  have hequal := (hash_is_polynomial 0 [0] []).2 [0, 0] [] (by decide) (by decide) (by decide)
    (by decide)
  exact absurd (hequal.1 h).1 (by decide)

end TlsClient.Gcm
