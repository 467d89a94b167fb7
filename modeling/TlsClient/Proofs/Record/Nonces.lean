import Mathlib.Data.List.Induction
import TlsClient.Proofs.Gcm.Counter
import TlsClient.Proofs.Record.Sealing

namespace TlsClient.Protection

variable {ρ : Type}

def nonceAt (iv : Octets 4) (i : Nat) : Octets Gcm.nonceLength :=
  nonce iv (Bytes.ofNat explicitNonceLength (UInt64.ofNat i).toNat)

def blocksAt (iv : Octets 4) (i : Nat) (m : Outgoing ρ) : List Aes.Block :=
  Gcm.counterBlocks (nonceAt iv i) m.content.length

/-- The counter blocks of all records, the first record's first. -/
def blocks (iv : Octets 4) (ms : List (Outgoing ρ)) : List Aes.Block :=
  (ms.mapIdx (blocksAt iv)).flatten

/-- A record's fragment is the sequence number, and what the block cipher makes of the message on the
record's counter blocks alone. -/
theorem fragment_sealAt [RandomSource ρ] (cipher : Gcm) (iv : Octets 4) (i : Nat)
    (m : Outgoing ρ) :
    ((Protection.gcm cipher iv).sealAt i m).fragment =
      let header := RecordContext.header ⟨UInt64.ofNat i, m.contentType, .tls12⟩ m.content.length
      let encrypted := cipher.encryptOn (blocksAt iv i m) header m.content
      Bytes.ofNat explicitNonceLength (UInt64.ofNat i).toNat ++ encrypted.1 ++ encrypted.2 := by
  simp only [sealAt, protect, Gcm.encrypt_eq_encryptOn, blocksAt, nonceAt]

/-- The explicit part determines the nonce of a key. -/
theorem nonce_injective {iv : Octets 4} {a b : Bytes} (ha : a.length = explicitNonceLength)
    (hb : b.length = explicitNonceLength) (h : nonce iv a = nonce iv b) : a = b := by
  have hlist (c : Bytes) (hc : c.length = explicitNonceLength) :
      (nonce iv c).toList = iv.toList ++ c := by
    apply Octets.toList_ofBytes
    rw [List.length_append, hc, Vector.length_toList]
    rfl
  -- The fixed part is the same on both sides and can be taken off.
  have hbytes := congrArg Vector.toList h
  rw [hlist a ha, hlist b hb] at hbytes
  exact List.append_cancel_left hbytes

/-- Below `2 ^ 64` no two sequence numbers have the same nonce. -/
theorem nonceAt_injective {iv : Octets 4} {i j : Nat} (hi : i < UInt64.size) (hj : j < UInt64.size)
    (h : nonceAt iv i = nonceAt iv j) : i = j := by
  have hexplicit := nonce_injective (Bytes.length_ofNat _ _) (Bytes.length_ofNat _ _) h
  -- Eight bytes hold any sequence number, and places below the limit are such numbers.
  have hnat := Bytes.ofNat_injective (UInt64.toNat_lt _) (UInt64.toNat_lt _) hexplicit
  rwa [UInt64.toNat_ofNat_of_lt' hi, UInt64.toNat_ofNat_of_lt' hj] at hnat

theorem nodup_nonces (iv : Octets 4) {n : Nat} (hn : n ≤ UInt64.size) :
    ((List.range n).map (nonceAt iv)).Nodup := by
  refine List.Nodup.map_on ?_ List.nodup_range
  intro i hi j hj hij
  have hi' : i < UInt64.size := Nat.lt_of_lt_of_le (List.mem_range.1 hi) hn
  have hj' : j < UInt64.size := Nat.lt_of_lt_of_le (List.mem_range.1 hj) hn
  exact nonceAt_injective hi' hj' hij

/-- A record is too short for its counter to wrap, so its blocks all differ. -/
theorem nodup_blocksAt (iv : Octets 4) (i : Nat) {m : Outgoing ρ}
    (h : m.content.length ≤ Record.maxPlaintext) : (blocksAt iv i m).Nodup := by
  apply Gcm.nodup_counterRun
  -- At most 1025 blocks, far fewer than there are counters.
  have hlimit : Record.maxPlaintext = 16384 := rfl
  have hsize : UInt32.size = 4294967296 := rfl
  omega

/-- One more record adds its own blocks and leaves those before it as they are. -/
theorem blocks_append_singleton (iv : Octets 4) (ms : List (Outgoing ρ)) (m : Outgoing ρ) :
    blocks iv (ms ++ [m]) = blocks iv ms ++ blocksAt iv ms.length m := by
  simp [blocks, List.mapIdx_append]

/-- No counter block is used twice, within a record or in two records. -/
theorem nodup_blocks (iv : Octets 4) {ms : List (Outgoing ρ)} (hlength : ms.length ≤ UInt64.size)
    (hshort : ∀ m ∈ ms, m.content.length ≤ Record.maxPlaintext) : (blocks iv ms).Nodup := by
  -- The last record is taken off; its nonce is new.
  induction ms using List.reverseRecOn with
  | nil => exact List.nodup_nil
  | append_singleton ms m ih =>
    rw [List.length_append, List.length_singleton] at hlength
    rw [blocks_append_singleton]
    refine List.Nodup.append ?_ ?_ ?_
    · apply ih (Nat.le_of_succ_le hlength)
      intro m' hm'
      exact hshort m' (List.mem_append_left _ hm')
    · apply nodup_blocksAt iv ms.length
      exact hshort m (List.mem_append_right _ (List.mem_singleton_self m))
    · intro b hb hb'
      obtain ⟨run, hrun, hb⟩ := List.mem_flatten.1 hb
      obtain ⟨i, hi, rfl⟩ := List.mem_mapIdx.1 hrun
      have hnonce : nonceAt iv i ≠ nonceAt iv ms.length := by
        intro h
        have hsame := nonceAt_injective (by omega) (by omega) h
        omega
      exact Gcm.disjoint_counterRun 1 1 _ _ hnonce hb hb'

end TlsClient.Protection
