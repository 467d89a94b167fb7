import Mathlib.Data.List.Nodup
import TlsClient.Gcm.Cipher
import TlsClient.Proofs.Aes.Inverse

namespace TlsClient.Gcm

def counterRun (nonce : Octets nonceLength) (counter : UInt32) (n : Nat) : List Aes.Block :=
  (List.range n).map fun i => counterBlock nonce (counter + UInt32.ofNat i)

/-- Every block that the block cipher is called on to encrypt a content of the given length: one for
the tag and one for each piece of keystream. -/
def counterBlocks (nonce : Octets nonceLength) (length : Nat) : List Aes.Block :=
  counterRun nonce 1 ((length + 15) / 16 + 1)

def addBlocks (g : Gcm) (blocks : List Aes.Block) (pieces : List Bytes) : Bytes :=
  (List.zipWith (fun piece b => Bytes.xor piece (g.keys.encrypt b).toBytes) pieces blocks).flatten

/-- Encryption that calls the block cipher on the given blocks only: on the first one for the tag
and on the others for the pieces. -/
def encryptOn (g : Gcm) (blocks : List Aes.Block) (aad plaintext : Bytes) : Bytes × Bytes :=
  let ciphertext := g.addBlocks blocks.tail (Bytes.chunks 16 plaintext)
  let mask := (g.keys.encrypt (blocks.headD (.ofBytes []))).toBytes
  (ciphertext, Bytes.xor (hash g.hashKey aad ciphertext).toBytes mask)

variable {nonce nonce' : Octets nonceLength}

theorem counterRun_succ (counter : UInt32) (n : Nat) :
    counterRun nonce counter (n + 1) =
      counterBlock nonce counter :: counterRun nonce (counter + 1) n := by
  -- One place further along is the same as one more in the counter.
  have hnext (i : Nat) : counter + UInt32.ofNat (i + 1) = counter + 1 + UInt32.ofNat i := by
    rw [UInt32.ofNat_add, UInt32.add_comm (UInt32.ofNat i), ← UInt32.add_assoc]
    rfl
  rw [counterRun, List.range_succ_eq_map, List.map_cons, List.map_map]
  simp only [Function.comp_def, Nat.succ_eq_add_one, hnext]
  simp [counterRun]

/-- The keystream is the encryption of the counter blocks from the given counter on. -/
theorem addKeystream_eq (g : Gcm) (counter : UInt32) (pieces : List Bytes) :
    g.addKeystream nonce counter pieces =
      g.addBlocks (counterRun nonce counter pieces.length) pieces := by
  induction pieces generalizing counter with
  | nil => rfl
  | cons piece pieces ih =>
    rw [addKeystream, ih, List.length_cons, counterRun_succ]
    rfl

/-- The blocks of a content's run are all that its encryption calls the block cipher on. -/
theorem encrypt_eq_encryptOn (g : Gcm) (aad plaintext : Bytes) :
    g.encrypt nonce aad plaintext =
      g.encryptOn (counterBlocks nonce plaintext.length) aad plaintext := by
  -- The first block is the tag's, and there are as many others as there are pieces.
  have hblocks : counterBlocks nonce plaintext.length =
      counterBlock nonce 1 :: counterRun nonce 2 (Bytes.chunks 16 plaintext).length := by
    rw [counterBlocks, counterRun_succ, Bytes.length_chunks (by decide)]
    rfl
  rw [encrypt, crypt, addKeystream_eq, encryptOn, hblocks]
  rfl

/-- A counter block determines its nonce and its counter. -/
theorem counterBlock_injective {c c' : UInt32} (h : counterBlock nonce c = counterBlock nonce' c') :
    nonce = nonce' ∧ c = c' := by
  have hlength (v : Octets nonceLength) (d : UInt32) :
      (v.toList ++ Bytes.ofNat 4 d.toNat).length = Aes.blockLength := by
    rw [List.length_append, Vector.length_toList, Bytes.length_ofNat]
    rfl
  have hbytes := Aes.Block.ofBytes_injective (hlength nonce c) (hlength nonce' c') h
  -- The nonce is twelve bytes of the block and the counter the other four.
  obtain ⟨hnonce, hcounter⟩ := List.append_inj hbytes (by simp)
  have hnat := Bytes.ofNat_injective c.toNat_lt c'.toNat_lt hcounter
  exact ⟨Vector.toList_inj.1 hnonce, UInt32.toNat_inj.1 hnat⟩

/-- The blocks of one run differ as long as the counter does not wrap. -/
theorem nodup_counterRun (counter : UInt32) {n : Nat} (h : n ≤ UInt32.size) :
    (counterRun nonce counter n).Nodup := by
  refine List.Nodup.map_on ?_ List.nodup_range
  intro i hi j hj hij
  have hi' : i < UInt32.size := Nat.lt_of_lt_of_le (List.mem_range.1 hi) h
  have hj' : j < UInt32.size := Nat.lt_of_lt_of_le (List.mem_range.1 hj) h
  -- The run is not longer than there are counters, so no two of them coincide.
  have hcounter := (UInt32.add_right_inj counter).1 (counterBlock_injective hij).2
  have hnat := congrArg UInt32.toNat hcounter
  rwa [UInt32.toNat_ofNat_of_lt' hi', UInt32.toNat_ofNat_of_lt' hj'] at hnat

/-- Runs of different nonces have no block in common, whatever their counters are. -/
theorem disjoint_counterRun (c c' : UInt32) (m n : Nat) (h : nonce ≠ nonce') :
    List.Disjoint (counterRun nonce c m) (counterRun nonce' c' n) := by
  intro b hb hb'
  obtain ⟨i, -, rfl⟩ := List.mem_map.1 hb
  obtain ⟨j, -, hj⟩ := List.mem_map.1 hb'
  exact h (counterBlock_injective hj).1.symm

end TlsClient.Gcm
