import TlsClient.Proofs.Aes.Inverse

namespace TlsClient.Aes

def blockAt (bs : Bytes) (i : ℕ) : Block :=
  .ofBytes ((bs.drop (blockLength * i)).take blockLength)

/-- What block `i` is chained to: the block before it, and the initial vector before the first one. -/
def chainedTo (iv : Block) (bs : Bytes) : ℕ → Block
  | 0 => iv
  | i + 1 => blockAt bs i

/-- The blocks of whole blocks are the sixteen bytes at each multiple of sixteen. -/
theorem split_eq {bs : Bytes} (h : blockLength ∣ bs.length) :
    Block.split bs = (List.range (bs.length / blockLength)).map (blockAt bs) := by
  rw [Block.split, Bytes.chunks_eq_map_range (by decide) h, List.map_map]
  rfl

theorem getElem?_split {bs : Bytes} (h : blockLength ∣ bs.length) {i : ℕ}
    (hi : blockLength * i < bs.length) : (Block.split bs)[i]? = some (blockAt bs i) := by
  have hlt : i < bs.length / blockLength := by
    rw [blockLength] at h hi ⊢
    omega
  rw [split_eq h, List.getElem?_map, List.getElem?_range hlt, Option.map_some]

theorem getElem?_cons_split (iv : Block) {bs : Bytes} (h : blockLength ∣ bs.length) {i : ℕ}
    (hi : blockLength * i < bs.length) : (iv :: Block.split bs)[i]? = some (chainedTo iv bs i) := by
  cases i with
  | zero => rfl
  | succ i => exact getElem?_split h (Nat.lt_of_le_of_lt (Nat.mul_le_mul_left _ (Nat.le_succ i)) hi)

theorem dvd_length_join (blocks : List Block) : blockLength ∣ (Block.join blocks).length := by
  rw [Block.length_join]
  exact Nat.dvd_mul_left _ _

theorem length_join_split {bs : Bytes} (h : blockLength ∣ bs.length) :
    (Block.split bs).length * blockLength = bs.length := by
  rw [← Block.length_join, Block.join_split h]

namespace RoundKeys

variable (keys : RoundKeys) (iv : Block)

/-- Behind the initial vector, a chain is made from itself one block earlier. -/
theorem chainEncrypt_eq_zipWith (blocks : List Block) : keys.chainEncrypt iv blocks =
    List.zipWith (fun c p => keys.encrypt (p.xor c)) (iv :: keys.chainEncrypt iv blocks) blocks := by
  induction blocks generalizing iv with
  | nil => rfl
  | cons p ps ih => rw [chainEncrypt, List.zipWith_cons_cons, ← ih, Block.xor_comm]

/-- Decryption of a block needs no more than the block and the one before it. -/
theorem chainDecrypt_eq_zipWith (blocks : List Block) : keys.chainDecrypt iv blocks =
    List.zipWith (fun c c' => (keys.decrypt c').xor c) (iv :: blocks) blocks := by
  induction blocks generalizing iv with
  | nil => rfl
  | cons c cs ih => rw [chainDecrypt, List.zipWith_cons_cons, ← ih]

/-- Whole blocks are never refused. -/
theorem cbcEncrypt_eq {buffer : Bytes} (h : blockLength ∣ buffer.length) :
    keys.cbcEncrypt iv buffer = (.ok (), Block.join (keys.chainEncrypt iv (Block.split buffer))) :=
  if_neg (not_not.2 (Nat.mod_eq_zero_of_dvd h))

theorem cbcDecrypt_eq {buffer : Bytes} (h : blockLength ∣ buffer.length) :
    keys.cbcDecrypt iv buffer = (.ok (), Block.join (keys.chainDecrypt iv (Block.split buffer))) :=
  if_neg (not_not.2 (Nat.mod_eq_zero_of_dvd h))

/-- A buffer that is not made of whole blocks is refused and left as it was. -/
theorem onWholeBlocks_of_not_dvd (f : List Block → List Block) {buffer : Bytes}
    (h : ¬ blockLength ∣ buffer.length) :
    onWholeBlocks f buffer = (.error (.notBlockAligned buffer.length), buffer) :=
  if_pos (mt Nat.dvd_of_mod_eq_zero h)

/-- What is encrypted to a string of whole blocks is what it decrypts to. -/
theorem cbcEncrypt_eq_ok_iff (data body : Bytes) :
    keys.cbcEncrypt iv data = (.ok (), body) ↔
      blockLength ∣ body.length ∧ Block.join (keys.chainDecrypt iv (Block.split body)) = data := by
  constructor
  · intro h
    by_cases hwhole : blockLength ∣ data.length
    · rw [keys.cbcEncrypt_eq iv hwhole] at h
      obtain ⟨-, rfl⟩ := Prod.mk.inj h
      rw [Block.split_join, chainDecrypt_chainEncrypt, Block.join_split hwhole]
      exact ⟨dvd_length_join _, rfl⟩
    · rw [cbcEncrypt, onWholeBlocks_of_not_dvd _ hwhole] at h
      simp at h
  · rintro ⟨hwhole, rfl⟩
    rw [keys.cbcEncrypt_eq iv (dvd_length_join _), Block.split_join, chainEncrypt_chainDecrypt,
      Block.join_split hwhole]

theorem length_join_chainDecrypt {buffer : Bytes} (h : blockLength ∣ buffer.length) :
    (Block.join (keys.chainDecrypt iv (Block.split buffer))).length = buffer.length := by
  rw [Block.length_join, length_chainDecrypt, length_join_split h]

theorem length_of_cbcEncrypt {data body : Bytes}
    (h : keys.cbcEncrypt iv data = (.ok (), body)) : body.length = data.length := by
  obtain ⟨hwhole, rfl⟩ := (keys.cbcEncrypt_eq_ok_iff iv data body).1 h
  exact (keys.length_join_chainDecrypt iv hwhole).symm

variable {iv} {buffer : Bytes}

/-- The recurrence of the standard, with the initial vector before the first block. -/
theorem blockAt_chainEncrypt (h : blockLength ∣ buffer.length) {i : ℕ}
    (hi : blockLength * i < buffer.length) {encrypted : Bytes}
    (hencrypted : encrypted = Block.join (keys.chainEncrypt iv (Block.split buffer))) :
    blockAt encrypted i =
      keys.encrypt ((blockAt buffer i).xor (chainedTo iv encrypted i)) := by
  have hlength : encrypted.length = buffer.length := by
    rw [hencrypted, Block.length_join, length_chainEncrypt, length_join_split h]
  have hwhole : blockLength ∣ encrypted.length := hlength ▸ h
  have hsplit : Block.split encrypted = keys.chainEncrypt iv (Block.split buffer) := by
    rw [hencrypted, Block.split_join]
  have hread := getElem?_split hwhole (hlength ▸ hi)
  rw [hsplit, chainEncrypt_eq_zipWith, ← hsplit, List.getElem?_zipWith,
    getElem?_cons_split iv hwhole (hlength ▸ hi), getElem?_split h hi] at hread
  exact (Option.some.inj hread).symm

/-- A plaintext block comes from its ciphertext block and the one before. -/
theorem blockAt_chainDecrypt (h : blockLength ∣ buffer.length) {i : ℕ}
    (hi : blockLength * i < buffer.length) :
    blockAt (Block.join (keys.chainDecrypt iv (Block.split buffer))) i =
      (keys.decrypt (blockAt buffer i)).xor (chainedTo iv buffer i) := by
  have hlength := keys.length_join_chainDecrypt iv h
  have hread := getElem?_split (dvd_length_join _) (hlength ▸ hi)
  rw [Block.split_join, chainDecrypt_eq_zipWith, List.getElem?_zipWith, getElem?_cons_split iv h hi,
    getElem?_split h hi, ← chainDecrypt_eq_zipWith] at hread
  exact (Option.some.inj hread).symm

end RoundKeys

/-- For a buffer of whole blocks encryption and decryption undo each other, ciphertext blocks follow the
recurrence, and in any other ciphertext a block which is the same as in this one, and which is chained
to the same block, decrypts to the same; a buffer of any other length is refused and left alone. -/
theorem cbc_inverts_and_confines (key iv : Block) (buffer : Bytes) :
    if 16 ∣ buffer.length then
      ∃ encrypted decrypted,
        (RoundKeys.ofKey key).cbcEncrypt iv buffer = (.ok (), encrypted) ∧
        (RoundKeys.ofKey key).cbcDecrypt iv encrypted = (.ok (), buffer) ∧
        (RoundKeys.ofKey key).cbcDecrypt iv buffer = (.ok (), decrypted) ∧
        (RoundKeys.ofKey key).cbcEncrypt iv decrypted = (.ok (), buffer) ∧
        encrypted.length = buffer.length ∧ decrypted.length = buffer.length ∧
        (∀ i, 16 * i < buffer.length → blockAt encrypted i =
          (RoundKeys.ofKey key).encrypt ((blockAt buffer i).xor (chainedTo iv encrypted i))) ∧
        ∀ altered, 16 ∣ altered.length → ∃ result,
          (RoundKeys.ofKey key).cbcDecrypt iv altered = (.ok (), result) ∧
          result.length = altered.length ∧
          ∀ i, 16 * i < buffer.length → 16 * i < altered.length →
            chainedTo iv altered i = chainedTo iv buffer i → blockAt altered i = blockAt buffer i →
            blockAt result i = blockAt decrypted i
    else
      (RoundKeys.ofKey key).cbcEncrypt iv buffer =
        (.error (.notBlockAligned buffer.length), buffer) ∧
      (RoundKeys.ofKey key).cbcDecrypt iv buffer =
        (.error (.notBlockAligned buffer.length), buffer) := by
  generalize RoundKeys.ofKey key = keys
  split
  · rename_i h
    have hencrypt := keys.cbcEncrypt_eq iv h
    have hdecrypt := keys.cbcDecrypt_eq iv h
    refine ⟨_, _, hencrypt, ?_, hdecrypt, ?_, keys.length_of_cbcEncrypt iv hencrypt,
      keys.length_join_chainDecrypt iv h, ?_, ?_⟩
    · rw [keys.cbcDecrypt_eq iv (dvd_length_join _), Block.split_join,
        RoundKeys.chainDecrypt_chainEncrypt, Block.join_split h]
    · exact (keys.cbcEncrypt_eq_ok_iff iv _ _).2 ⟨h, rfl⟩
    · exact fun i hi => keys.blockAt_chainEncrypt h hi rfl
    · intro altered haltered
      refine ⟨_, keys.cbcDecrypt_eq iv haltered, keys.length_join_chainDecrypt iv haltered,
        fun i hi hi' hchained hblock => ?_⟩
      rw [keys.blockAt_chainDecrypt haltered hi', keys.blockAt_chainDecrypt h hi, hchained, hblock]
  · rename_i h
    exact ⟨RoundKeys.onWholeBlocks_of_not_dvd _ h, RoundKeys.onWholeBlocks_of_not_dvd _ h⟩

/-- A bit that is flipped in the first of three blocks does not reach the third. -/
theorem third_block_unaltered : ∃ decrypted result,
    (RoundKeys.ofKey (.ofBytes [])).cbcDecrypt (.ofBytes []) (List.replicate 48 0) =
      (.ok (), decrypted) ∧
    (RoundKeys.ofKey (.ofBytes [])).cbcDecrypt (.ofBytes []) ((List.replicate 48 0).set 5 1) =
      (.ok (), result) ∧
    blockAt result 2 = blockAt decrypted 2 := by
  have hall := cbc_inverts_and_confines (.ofBytes []) (.ofBytes []) (List.replicate 48 0)
  rw [if_pos (by decide)] at hall
  obtain ⟨-, decrypted, -, -, hdecrypted, -, -, -, -, halter⟩ := hall
  obtain ⟨result, hresult, -, hsame⟩ := halter ((List.replicate 48 0).set 5 1) (by decide)
  exact ⟨decrypted, result, hdecrypted, hresult, hsame 2 (by decide) (by decide) rfl rfl⟩

end TlsClient.Aes
