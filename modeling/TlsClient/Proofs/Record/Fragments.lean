import TlsClient.Proofs.Record.Opening
import TlsClient.Proofs.Sha256.Stream
import TlsClient.Random.Scripted

namespace TlsClient

/-- The 13 bytes that are authenticated along with a content: the sequence number, the type, the version
and the length modulo `2 ^ 16`. -/
theorem RecordContext.header_eq (context : RecordContext) (length : Nat) :
    context.header length = Bytes.ofNat 8 context.sequence.toNat ++ [context.contentType.code] ++
      Bytes.ofNat 2 context.version.code.toNat ++ Bytes.ofNat 2 (length % 2 ^ 16) := by
  have hlength : Bytes.ofNat 2 (length % 2 ^ 16) = Bytes.ofNat 2 length := Bytes.ofNat_mod 2 length
  rw [hlength, header]

namespace Protection

/-- What stands in front of the place is not touched. -/
theorem inPlace_append {α : Type} (f : Bytes → α × Bytes) (before rest : Bytes) :
    inPlace before.length f (before ++ rest) = ((f rest).1, before ++ (f rest).2) := by
  rw [inPlace, List.drop_left, List.take_left]

theorem mac_eq (macKey : Bytes) (context : RecordContext) (content : Bytes) :
    mac macKey context content = Hmac.mac macKey (Bytes.ofNat 8 context.sequence.toNat ++
      [context.contentType.code] ++ Bytes.ofNat 2 context.version.code.toNat ++
      Bytes.ofNat 2 (content.length % 2 ^ 16) ++ content) := by
  rw [mac, Hmac.mac, Hmac.update_update, RecordContext.header_eq]

variable {ρ : Type} [RandomSource ρ]

/-- Sealing never fails, leaves alone what was in the buffer and appends the fragment. -/
theorem sealInto_eq (p : Protection) (context : RecordContext) (content buffer : Bytes) (r : ρ) :
    p.sealInto context content buffer r =
      (.ok (), buffer ++ (p.protect context content r).1, (p.protect context content r).2) := by
  cases p with
  | gcm cipher iv =>
    simp only [sealInto, protect, inPlace_append, Prod.fst_swap, Prod.snd_swap]
    simp only [List.append_assoc]
  | cbc keys macKey =>
    have hwhole := dvd_length_append_padding (content ++ mac macKey context content)
    have hencrypt := keys.cbcEncrypt_eq (.ofBytes (RandomSource.fill r Aes.blockLength).1) hwhole
    simp only [sealInto, protect]
    rw [List.append_assoc (buffer ++ _), inPlace_append, hencrypt, List.append_assoc buffer]

/-- What is appended is as long as the content and what was said to be added to it. -/
theorem length_protect (p : Protection) (context : RecordContext) (content : Bytes) (r : ρ) :
    (p.protect context content r).1.length = content.length + p.overhead content.length := by
  cases p with
  | gcm cipher iv => exact length_protect_gcm cipher iv context content r
  | cbc keys macKey =>
    have hblock : Aes.blockLength = 16 := rfl
    have hmac : macLength = 32 := rfl
    rw [length_protect_cbc, overhead, hblock, hmac]
    omega

/-- What a fragment is made of, and what is drawn for it. Under GCM it is the sequence number, the
ciphertext and the tag. Under CBC it is a random initial vector and the encryption of the content with
its authentication code and `n + 1` padding bytes of value `n`. -/
def Writes (p : Protection) (context : RecordContext) (content fragment : Bytes) (r r' : ρ) : Prop :=
  ∃ sequence header,
    sequence = Bytes.ofNat 8 context.sequence.toNat ∧
    header = sequence ++ [context.contentType.code] ++ Bytes.ofNat 2 context.version.code.toNat ++
      Bytes.ofNat 2 (content.length % 2 ^ 16) ∧
    match p with
    | .gcm cipher iv =>
      r' = r ∧ ∃ ciphertext tag,
        cipher.encrypt (nonce iv sequence) header content = (ciphertext, tag) ∧
        ciphertext.length = content.length ∧ tag.length = 16 ∧
        fragment = sequence ++ ciphertext ++ tag
    | .cbc keys macKey =>
      ∃ iv body n, RandomSource.fill r 16 = (iv, r') ∧ iv.length = 16 ∧ n ≤ 15 ∧
        keys.cbcEncrypt (.ofBytes iv)
          (content ++ Hmac.mac macKey (header ++ content) ++
            List.replicate (n + 1) (UInt8.ofNat n)) = (.ok (), body) ∧
        fragment = iv ++ body

/-- Sealing writes what a fragment is made of and draws no more than that takes. -/
theorem protect_writes (p : Protection) (context : RecordContext) (content : Bytes) (r : ρ) :
    p.Writes context content (p.protect context content r).1 r (p.protect context content r).2 := by
  refine ⟨_, _, rfl, rfl, ?_⟩
  cases p with
  | gcm cipher iv =>
    have hexplicit : explicitNonceLength = 8 := rfl
    have htag : Gcm.tagLength = 16 := rfl
    simp only [protect, hexplicit, ← RecordContext.header_eq]
    generalize hencrypt : cipher.encrypt (nonce iv (Bytes.ofNat 8 context.sequence.toNat))
      (context.header content.length) content = encrypted
    refine ⟨trivial, encrypted.1, encrypted.2, rfl, ?_, ?_, rfl⟩
    · rw [← hencrypt, Gcm.length_encrypt_fst]
    · rw [← hencrypt, Gcm.length_encrypt_snd, htag]
  | cbc keys macKey =>
    have hwhole := dvd_length_append_padding (content ++ mac macKey context content)
    have hencrypt := keys.cbcEncrypt_eq (.ofBytes (RandomSource.fill r Aes.blockLength).1) hwhole
    rw [padding_eq, mac_eq] at hencrypt
    refine ⟨_, _, 15 - (content ++ mac macKey context content).length % 16, rfl,
      RandomSource.length_fill r 16, Nat.sub_le _ _, ?_, rfl⟩
    rw [mac_eq]
    exact hencrypt

/-- A content of any length is sealed under the keys of either side, and whoever has the same keys
opens what was appended, whether or not the authentication code is checked. -/
theorem sealed_opens {suite : CipherSuite} (hsuite : suite.supported = true) {block : Bytes}
    (hblock : suite.keyBlockLength ≤ block.length) (side : Side) (context : RecordContext)
    (content buffer : Bytes) (r : ρ) :
    ∃ keys p fragment r', KeyMaterial.ofKeyBlock suite block = .ok keys ∧
      p = Protection.ofKeys suite keys side ∧
      p.sealInto context content buffer r = (.ok (), buffer ++ fragment, r') ∧
      fragment.length = content.length + p.overhead content.length ∧
      (∀ checkMac, p.unprotect context fragment checkMac = .ok content) ∧
      p.Writes context content fragment r r' := by
  have hneither : ¬ (suite.supported = false ∨ block.length < suite.keyBlockLength) := by
    simp [hsuite, Nat.not_lt.2 hblock]
  refine ⟨_, _, _, _, if_neg hneither, rfl, sealInto_eq _ context content buffer r, ?_, ?_, ?_⟩
  · exact length_protect _ context content r
  · exact unprotect_protect _ context content r
  · exact protect_writes _ context content r

/-- A content whose length does not fit the two bytes that are authenticated of it, and which fills its
blocks together with its authentication code, so that the padding is a block of its own. -/
theorem long_content_opens : ∃ keys fragment r',
    KeyMaterial.ofKeyBlock .rsaAes128CbcSha256 (List.replicate 130 9) = .ok keys ∧
    (ofKeys .rsaAes128CbcSha256 keys .server).sealInto ⟨5, .applicationData, .tls12⟩
      (List.replicate 70000 7) [1, 2, 3] (ScriptedSource.ofBytes []) =
      (.ok (), [1, 2, 3] ++ fragment, r') ∧
    fragment.length = 70064 ∧
    ∀ checkMac, (ofKeys .rsaAes128CbcSha256 keys .server).unprotect ⟨5, .applicationData, .tls12⟩
      fragment checkMac = .ok (List.replicate 70000 7) := by
  obtain ⟨keys, p, fragment, r', hkeys, rfl, hseal, hlength, hopen, -⟩ :=
    @sealed_opens _ _ .rsaAes128CbcSha256 rfl (List.replicate 130 9)
      (by rw [List.length_replicate]; decide) .server ⟨5, .applicationData, .tls12⟩
      (List.replicate 70000 7) [1, 2, 3] (ScriptedSource.ofBytes [])
  have hoverhead : (ofKeys .rsaAes128CbcSha256 keys .server).overhead 70000 = 64 := rfl
  rw [List.length_replicate, hoverhead] at hlength
  exact ⟨keys, fragment, r', hkeys, hseal, hlength, hopen⟩

end Protection
end TlsClient
