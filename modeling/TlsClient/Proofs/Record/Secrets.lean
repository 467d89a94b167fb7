import TlsClient.Prf
import TlsClient.Record.Protection

namespace TlsClient

namespace Prf

theorem length_digests (keyed : Hmac) (seed : Bytes) (n : Nat) (a : Bytes) :
    (digests keyed seed n a).length = 32 * n := by
  induction n generalizing a with
  | zero => rfl
  | succ n ih =>
    have hfirst : ((keyed.update a).update seed).finish.length = 32 := Hmac.length_finish _
    rw [digests, List.length_append, hfirst, ih]
    omega

/-- What is within the limit can be asked for. -/
theorem expand_eq_ok (secret : Bytes) (label : String) (seed : Bytes) {length : Nat}
    (h : length ≤ outputLimit) :
    ∃ bs, expand secret label seed length = .ok bs ∧ bs.length = length := by
  rw [expand, if_neg (Nat.not_lt.2 h)]
  refine ⟨_, rfl, ?_⟩
  have hdigest : Sha256.digestLength = 32 := rfl
  rw [List.length_take, length_digests, hdigest]
  omega

end Prf

structure Secrets where
  master : Bytes
  client : Protection
  server : Protection

namespace Secrets

def cut (block : Bytes) (start length : Nat) : Bytes :=
  (block.drop start).take length

def gcm (master block : Bytes) : Secrets where
  master := master
  client := .gcm (Gcm.ofKey (.ofBytes (cut block 0 16))) (Octets.ofBytes 4 (cut block 32 4))
  server := .gcm (Gcm.ofKey (.ofBytes (cut block 16 16))) (Octets.ofBytes 4 (cut block 36 4))

/-- The keys for CBC: two keys for authentication and two for encryption. The two initial vectors
after them are not used. -/
def cbc (master block : Bytes) : Secrets where
  master := master
  client := .cbc (Aes.RoundKeys.ofKey (.ofBytes (cut block 64 16))) (cut block 0 32)
  server := .cbc (Aes.RoundKeys.ofKey (.ofBytes (cut block 80 16))) (cut block 32 32)

theorem bind_of_ok {α β : Type} {x : Except CryptoFault α} {a : α} (h : x = .ok a)
    (f : α → Except CryptoFault β) : (x >>= f) = f a := by
  rw [h]
  rfl

def derive (suite : CipherSuite) (preMaster client server : Bytes) : Except CryptoFault Secrets := do
  let master ← Prf.expand preMaster "master secret" (client ++ server) 48
  let length := if suite.aead then 40 else 128
  let block ← Prf.expand master "key expansion" (server ++ client) length
  return if suite.aead then gcm master block else cbc master block

/-- The parts of a key block one after the other. -/
theorem ofKeyBlock_eq_ok {suite : CipherSuite} (hsuite : suite.supported = true) {block : Bytes}
    (h : block.length = suite.keyBlockLength) {m v : Nat} (hm : suite.macKeyLength = m)
    (hv : suite.fixedIvLength = v) :
    KeyMaterial.ofKeyBlock suite block = .ok {
      client := ⟨cut block 0 m, .ofBytes (cut block (m + m) 16), cut block (m + m + 32) v⟩
      server := ⟨cut block m m, .ofBytes (cut block (m + m + 16) 16),
        cut block (m + m + 32 + v) v⟩ } := by
  have hneither : ¬ (suite.supported = false ∨ block.length < suite.keyBlockLength) := by
    simp [hsuite, h]
  subst hm hv
  rw [KeyMaterial.ofKeyBlock, if_neg hneither]
  simp only [List.splitAt_eq, List.drop_drop, cut, List.drop_zero]
  rfl

/-- A client gets the same secrets out of the same values. -/
theorem derive_eq_ok {suite : CipherSuite} (hsuite : suite.supported = true)
    (preMaster client server : Bytes) :
    ∃ master block keys, Prf.masterSecret preMaster client server = .ok master ∧
      Prf.keyBlock master client server suite.keyBlockLength = .ok block ∧
      KeyMaterial.ofKeyBlock suite block = .ok keys ∧
      derive suite preMaster client server =
        .ok ⟨master, .ofKeys suite keys .client, .ofKeys suite keys .server⟩ := by
  have hlength : suite.keyBlockLength = if suite.aead then 40 else 128 := by
    cases suite with
    | unknown code => cases hsuite
    | _ => rfl
  have hlimit : suite.keyBlockLength ≤ Prf.outputLimit := by
    rw [hlength]
    split <;> decide
  obtain ⟨master, hmaster, -⟩ := Prf.expand_eq_ok preMaster "master secret" (client ++ server)
    (show 48 ≤ Prf.outputLimit by decide)
  obtain ⟨block, hblock, hblockLength⟩ :=
    Prf.expand_eq_ok master "key expansion" (server ++ client) hlimit
  have hkeys := ofKeyBlock_eq_ok hsuite hblockLength rfl rfl
  refine ⟨master, block, _, hmaster, hblock, hkeys, ?_⟩
  rw [hlength] at hblock
  have hderive : derive suite preMaster client server =
      .ok (if suite.aead then gcm master block else cbc master block) := by
    apply (bind_of_ok hmaster _).trans
    exact bind_of_ok hblock _
  rw [hderive]
  cases suite with
  | rsaAes128GcmSha256 => rfl
  | rsaAes128CbcSha256 => rfl
  | unknown code => cases hsuite

end Secrets
end TlsClient
