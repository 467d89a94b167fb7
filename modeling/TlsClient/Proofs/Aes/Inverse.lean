import Mathlib.Data.Finite.Prod
import Mathlib.Data.Fintype.EquivFin
import Mathlib.Data.List.FinRange
import Mathlib.Data.List.Perm.Subperm
import Mathlib.Tactic.Ring
import TlsClient.Aes.Cipher
import TlsClient.Proofs.Bytes

namespace TlsClient.Aes

/-- What holds of 256 numbers holds of every byte. -/
theorem forall_byte {P : UInt8 → Prop} (h : ∀ i : Fin 256, P (UInt8.ofNat i)) (b : UInt8) : P b := by
  have hb := h ⟨b.toNat, b.toNat_lt⟩
  simpa using hb

/-- The table is read in the order of the bytes. -/
theorem ofFn_sub : (List.ofFn fun i : Fin 256 => sub (UInt8.ofNat i)) = substitutionList := by
  decide +kernel

theorem length_substitutionList : substitutionList.length = 256 := by
  rw [← ofFn_sub, List.length_ofFn]

/-- A set of bytes as a number has the bit of each byte that was put into it. -/
theorem testBit_foldl_mark (bs : List UInt8) (m n : Nat) :
    (bs.foldl (fun m b => m ||| 2 ^ b.toNat) m).testBit n =
      (m.testBit n || bs.any fun b => b.toNat == n) := by
  -- A byte marks one bit and leaves the others as they are.
  induction bs generalizing m with
  | nil => simp
  | cons b bs ih =>
    rw [List.foldl_cons, ih, Nat.testBit_or, Nat.testBit_two_pow, List.any_cons,
      Bool.or_assoc]
    rfl

/-- Every byte is the substitution of some byte. -/
theorem mem_substitutionList (b : UInt8) : b ∈ substitutionList := by
  -- The table marks each of the 256 bits of a number.
  have hmarks : substitutionList.foldl (fun m b => m ||| 2 ^ b.toNat) 0 = 2 ^ 256 - 1 := by
    decide +kernel
  have hbit := testBit_foldl_mark substitutionList 0 b.toNat
  rw [hmarks, Nat.testBit_two_pow_sub_one] at hbit
  have hlt : b.toNat < 256 := b.toNat_lt
  have hany : (substitutionList.any fun c => c.toNat == b.toNat) = true := by
    simpa only [Nat.zero_testBit, Bool.false_or, hlt, decide_true] using hbit.symm
  obtain ⟨c, hc, hcb⟩ := List.any_eq_true.1 hany
  rwa [← UInt8.toNat_inj.1 (eq_of_beq hcb)]

/-- No byte stands twice in the table, so substituting can be undone. -/
theorem nodup_substitutionList : substitutionList.Nodup := by
  -- All 256 bytes are among 256 entries, so none of them is there twice.
  have hall : (List.ofFn fun i : Fin 256 => UInt8.ofNat i).Nodup := by
    apply List.nodup_ofFn.2
    intro i j h
    have hij := congrArg UInt8.toNat h
    simpa [Fin.ext_iff, Nat.mod_eq_of_lt] using hij
  have hsub := List.subperm_of_subset hall fun b _ => mem_substitutionList b
  have hperm := hsub.perm_of_length_le (by rw [length_substitutionList, List.length_ofFn])
  exact hperm.nodup_iff.1 hall

/-- The substitution is undone by looking up where a byte stands in its table. -/
theorem unsub_sub (b : UInt8) : unsub (sub b) = b := by
  have hlt : b.toNat < substitutionList.length := by
    rw [length_substitutionList]
    exact b.toNat_lt
  have hsub : sub b = substitutionList[b.toNat] := by
    have hread : b.toNat < (List.ofFn fun i : Fin 256 => sub (UInt8.ofNat i)).length := by
      rw [ofFn_sub]
      exact hlt
    have hentry := List.getElem_ofFn hread
    rw [UInt8.ofNat_toNat] at hentry
    rw [← hentry]
    exact List.getElem_of_eq ofFn_sub _
  have hplace (c : UInt8) : unsub c = UInt8.ofNat (substitutionList.idxOf c) := by
    simp [unsub, inverseSubstitutions, Array.getD, c.toNat_lt]
  -- No byte is there twice, so it is found again at the place where it was read.
  have hidx := nodup_substitutionList.idxOf_getElem b.toNat hlt
  rw [hplace, hsub, hidx, UInt8.ofNat_toNat]

theorem shiftRight_seven (a : UInt8) : a >>> 7 = 0 ∨ a >>> 7 = 1 := by
  have hdiv : (a >>> 7).toNat = a.toNat / 128 := by
    rw [UInt8.toNat_shiftRight]
    exact Nat.shiftRight_eq_div_pow _ 7
  have ha := a.toNat_lt
  simp only [← UInt8.toNat_inj, hdiv, UInt8.reduceToNat]
  omega

theorem double_xor (a b : UInt8) : double (a ^^^ b) = double a ^^^ double b := by
  -- The reduction depends on the top bit alone, so it is enough to look at two bits.
  have hreduce (x y : UInt8) (hx : x = 0 ∨ x = 1) (hy : y = 0 ∨ y = 1) :
      (x ^^^ y) * 0x1b = x * 0x1b ^^^ y * 0x1b := by
    rcases hx with rfl | rfl <;> rcases hy with rfl | rfl <;> decide
  have hab := hreduce _ _ (shiftRight_seven a) (shiftRight_seven b)
  rw [double, double, double, UInt8.shiftLeft_xor, UInt8.shiftRight_xor, hab]
  ac_rfl

theorem mulBits_xor (n : Nat) (a a' b : UInt8) :
    mulBits n (a ^^^ a') b = mulBits n a b ^^^ mulBits n a' b := by
  induction n generalizing a a' b with
  | zero => simp [mulBits]
  | succ n ih =>
    simp only [mulBits, double_xor, ih]
    split
    · ac_rfl
    · simp

/-- Multiplication of bytes distributes over their sum. -/
theorem mul_xor (a a' b : UInt8) : mul (a ^^^ a') b = mul a b ^^^ mul a' b :=
  mulBits_xor 8 a a' b

/-- What the product of both matrices makes of a byte: the byte in its own row, and zero in the three
others. -/
theorem mul_unmix (x : UInt8) :
    mul (double x) 14 ^^^ mul x 11 ^^^ mul x 13 ^^^ (mul (double x) 9 ^^^ mul x 9) = x ∧
    mul (double x) 14 ^^^ mul x 14 ^^^ mul (double x) 11 ^^^ mul x 13 ^^^ mul x 9 = 0 ∧
    mul x 14 ^^^ (mul (double x) 11 ^^^ mul x 11) ^^^ mul (double x) 13 ^^^ mul x 9 = 0 ∧
    mul x 14 ^^^ mul x 11 ^^^ (mul (double x) 13 ^^^ mul x 13) ^^^ mul (double x) 9 = 0 := by
  revert x
  apply forall_byte
  decide +kernel

namespace Column

@[simp] theorem xor_xor_cancel (x k : Column) : (x.xor k).xor k = x := by
  simp only [xor, UInt8.xor_assoc, UInt8.xor_self, UInt8.xor_zero]

/-- One row of the product of both circulant matrices: the byte itself and nothing of the others. -/
theorem unmix_row (w x y z : UInt8) :
    mul (double w ^^^ double x ^^^ x ^^^ y ^^^ z) 14 ^^^
      mul (w ^^^ double x ^^^ double y ^^^ y ^^^ z) 11 ^^^
      mul (w ^^^ x ^^^ double y ^^^ double z ^^^ z) 13 ^^^
      mul (double w ^^^ w ^^^ x ^^^ y ^^^ double z) 9 = w := by
  obtain ⟨hw, -⟩ := mul_unmix w
  obtain ⟨-, hx, -⟩ := mul_unmix x
  obtain ⟨-, -, hy, -⟩ := mul_unmix y
  obtain ⟨-, -, -, hz⟩ := mul_unmix z
  simp only [mul_xor]
  -- The terms are collected by the byte that they come from.
  calc
    _ = (mul (double w) 14 ^^^ mul w 11 ^^^ mul w 13 ^^^ (mul (double w) 9 ^^^ mul w 9)) ^^^
        (mul (double x) 14 ^^^ mul x 14 ^^^ mul (double x) 11 ^^^ mul x 13 ^^^ mul x 9) ^^^
        (mul y 14 ^^^ (mul (double y) 11 ^^^ mul y 11) ^^^ mul (double y) 13 ^^^ mul y 9) ^^^
        (mul z 14 ^^^ mul z 11 ^^^ (mul (double z) 13 ^^^ mul z 13) ^^^ mul (double z) 9) := by
      ac_rfl
    _ = w := by simp [hw, hx, hy, hz]

/-- The two matrices are inverse to each other, row by row and byte by byte. -/
theorem unmix_mix (x : Column) : x.mix.unmix = x := by
  -- The four rows are the same one with the bytes moved on.
  obtain ⟨w, x, y, z⟩ := x
  have hw := unmix_row w x y z
  have hx := unmix_row x y z w
  have hy := unmix_row y z w x
  have hz := unmix_row z w x y
  simp only [mix, unmix, mk.injEq]
  refine ⟨hw, ?_, ?_, ?_⟩
  · refine Eq.trans ?_ hx
    ac_rfl
  · refine Eq.trans ?_ hy
    ac_rfl
  · refine Eq.trans ?_ hz
    ac_rfl

end Column

namespace Block

@[simp] theorem unsubBytes_subBytes (s : Block) : s.subBytes.unsubBytes = s := by
  simp [subBytes, unsubBytes, mapColumns, Column.map, unsub_sub]

@[simp] theorem unshiftRows_shiftRows (s : Block) : s.shiftRows.unshiftRows = s := rfl

@[simp] theorem unmixColumns_mixColumns (s : Block) : s.mixColumns.unmixColumns = s := by
  simp [mixColumns, unmixColumns, mapColumns, Column.unmix_mix]

@[simp] theorem xor_xor_cancel (s k : Block) : (s.xor k).xor k = s := by
  simp [xor]

theorem xor_comm (s t : Block) : s.xor t = t.xor s := by
  simp [xor, Column.xor, UInt8.xor_comm]

@[simp] theorem ofBytes_toBytes (s : Block) : ofBytes s.toBytes = s := rfl

theorem toBytes_ofBytes {bs : Bytes} (h : bs.length = blockLength) : (ofBytes bs).toBytes = bs := by
  match bs, h with
  | [_, _, _, _, _, _, _, _, _, _, _, _, _, _, _, _], _ => rfl

theorem ofBytes_injective {a b : Bytes} (ha : a.length = blockLength) (hb : b.length = blockLength)
    (h : ofBytes a = ofBytes b) : a = b := by
  rw [← toBytes_ofBytes ha, h, toBytes_ofBytes hb]

theorem length_join (blocks : List Block) :
    (join blocks).length = blocks.length * blockLength := by
  induction blocks with
  | nil => rfl
  | cons s ss ih =>
    have hcons : join (s :: ss) = s.toBytes ++ join ss := rfl
    rw [hcons, List.length_append, ih, length_toBytes, List.length_cons]
    ring

/-- Blocks that were joined are taken apart at the same places. -/
theorem split_join (blocks : List Block) : split (join blocks) = blocks := by
  induction blocks with
  | nil => simp [split, join, Bytes.chunks_nil]
  | cons s ss ih =>
    have hcons : join (s :: ss) = s.toBytes ++ join ss := rfl
    -- A block is a piece of its own and ends where the next piece begins.
    have hfirst : Bytes.chunks blockLength s.toBytes = [s.toBytes] :=
      Bytes.chunks_of_length_le (List.cons_ne_nil _ _) (Nat.le_refl _)
    have happend : Bytes.chunks blockLength (s.toBytes ++ join ss) =
        Bytes.chunks blockLength s.toBytes ++ Bytes.chunks blockLength (join ss) :=
      Bytes.chunks_append (by decide) _ _ (Nat.dvd_refl _)
    rw [split] at ih ⊢
    rw [hcons, happend, hfirst, List.map_append, ih]
    rfl

theorem join_split {bs : Bytes} (h : blockLength ∣ bs.length) : join (split bs) = bs := by
  -- With whole blocks only, no piece is filled up with zeros.
  have hpieces : ∀ piece ∈ Bytes.chunks blockLength bs, (ofBytes piece).toBytes = piece := by
    intro piece hpiece
    exact toBytes_ofBytes (Bytes.length_of_mem_chunks (by decide) h hpiece)
  rw [join, split, List.flatMap_map, List.flatMap_congr hpieces, List.flatMap_id',
    Bytes.flatten_chunks (by decide)]

end Block

/-- The rounds are undone from the last one to the first. -/
theorem decryptRounds_encryptRounds (keys : List Block) (s : Block) :
    decryptRounds keys (encryptRounds keys s) = s := by
  induction keys generalizing s with
  | nil => rfl
  | cons k ks ih =>
    cases ks with
    | nil =>
      -- The last round does not mix columns.
      have hdec (t : Block) : decryptRounds [k] t = (t.xor k).unshiftRows.unsubBytes := rfl
      rw [encryptRounds, hdec]
      simp
    | cons k' ks =>
      have henc : encryptRounds (k :: k' :: ks) s =
          encryptRounds (k' :: ks) (s.subBytes.shiftRows.mixColumns.xor k) := rfl
      have hdec (t : Block) : decryptRounds (k :: k' :: ks) t =
          ((decryptRounds (k' :: ks) t).xor k).unmixColumns.unshiftRows.unsubBytes := rfl
      rw [henc, hdec, ih]
      simp

theorem finite_byte : Finite UInt8 :=
  Finite.of_injective (fun b : UInt8 => (⟨b.toNat, b.toNat_lt⟩ : Fin 256)) fun _ _ h =>
    UInt8.toNat_inj.1 (Fin.mk.inj h)

theorem finite_column : Finite Column := by
  have hbyte := finite_byte
  refine Finite.of_injective (fun x : Column => (x.b0, x.b1, x.b2, x.b3)) ?_
  rintro ⟨x0, x1, x2, x3⟩ ⟨y0, y1, y2, y3⟩ h
  simpa using h

/-- There are finitely many blocks, so a map of blocks that has a left inverse has a right one. -/
theorem finite_block : Finite Block := by
  have hcolumn := finite_column
  refine Finite.of_injective (fun s : Block => (s.c0, s.c1, s.c2, s.c3)) ?_
  rintro ⟨s0, s1, s2, s3⟩ ⟨t0, t1, t2, t3⟩ h
  simpa using h

namespace RoundKeys

/-- The cipher is undone with the same keys. -/
theorem decrypt_encrypt (keys : RoundKeys) (s : Block) : keys.decrypt (keys.encrypt s) = s := by
  simp [decrypt, encrypt, decryptRounds_encryptRounds]

/-- No two blocks are encrypted alike, so every block is the encryption of one. -/
theorem encrypt_decrypt (keys : RoundKeys) (s : Block) : keys.encrypt (keys.decrypt s) = s := by
  have hfinite := finite_block
  have hleft : Function.LeftInverse keys.decrypt keys.encrypt := keys.decrypt_encrypt
  have hsurjective : Function.Surjective keys.encrypt :=
    Finite.injective_iff_surjective.1 hleft.injective
  exact hleft.rightInverse_of_surjective hsurjective s

/-- Under every key decryption and encryption are inverse to each other, on every block. -/
theorem inverse_ofKey (key s : Block) : (ofKey key).decrypt ((ofKey key).encrypt s) = s ∧
    (ofKey key).encrypt ((ofKey key).decrypt s) = s :=
  ⟨decrypt_encrypt _ s, encrypt_decrypt _ s⟩

/-- A chain is decrypted from its front, each block with the ciphertext before it. -/
theorem chainDecrypt_chainEncrypt (keys : RoundKeys) (iv : Block) (blocks : List Block) :
    keys.chainDecrypt iv (keys.chainEncrypt iv blocks) = blocks := by
  induction blocks generalizing iv with
  | nil => rfl
  | cons p ps ih =>
    -- What was added before the cipher comes off after it.
    have hp : (iv.xor p).xor iv = p := by rw [Block.xor_comm iv p, Block.xor_xor_cancel]
    rw [chainEncrypt, chainDecrypt, decrypt_encrypt, hp, ih]

/-- Decrypting a chain loses nothing, so encrypting the result gives the chain again. -/
theorem chainEncrypt_chainDecrypt (keys : RoundKeys) (iv : Block) (blocks : List Block) :
    keys.chainEncrypt iv (keys.chainDecrypt iv blocks) = blocks := by
  induction blocks generalizing iv with
  | nil => rfl
  | cons c cs ih =>
    have hc : iv.xor ((keys.decrypt c).xor iv) = keys.decrypt c := by
      rw [Block.xor_comm iv, Block.xor_xor_cancel]
    rw [chainDecrypt, chainEncrypt, hc, encrypt_decrypt, ih]

@[simp] theorem length_chainDecrypt (keys : RoundKeys) (iv : Block) (blocks : List Block) :
    (keys.chainDecrypt iv blocks).length = blocks.length := by
  induction blocks generalizing iv with
  | nil => rfl
  | cons c cs ih => simp [chainDecrypt, ih]

@[simp] theorem length_chainEncrypt (keys : RoundKeys) (iv : Block) (blocks : List Block) :
    (keys.chainEncrypt iv blocks).length = blocks.length := by
  induction blocks generalizing iv with
  | nil => rfl
  | cons p ps ih => simp [chainEncrypt, ih]

end RoundKeys
end TlsClient.Aes
