import TlsClient.Proofs.Record.Fragments

namespace TlsClient

namespace Gcm

variable (g : Gcm) (nonce : Octets nonceLength) (aad buffer tag : Bytes)

/-- A buffer opens to the plaintext that it is the encryption of. -/
theorem decrypt_eq_ok_iff (plaintext : Bytes) :
    g.decrypt nonce aad buffer tag = (.ok (), plaintext) ↔
      g.encrypt nonce aad plaintext = (buffer, tag) := by
  constructor
  · intro h
    rw [decrypt] at h
    split at h
    · rename_i hagree
      -- The tag is that of the ciphertext, to which the keystream is added once more.
      obtain ⟨-, rfl⟩ := Prod.mk.inj h
      rw [encrypt, crypt_crypt, (Bytes.agree_iff _ _).1 hagree]
    · simp at h
  · intro h
    have hopen := g.decrypt_encrypt nonce aad plaintext
    rwa [h] at hopen

/-- What is decrypted was encrypted under the same key, nonce and additional data. -/
theorem decrypt_fst_eq_ok_iff :
    (g.decrypt nonce aad buffer tag).1 = .ok () ↔
      ∃ plaintext, g.encrypt nonce aad plaintext = (buffer, tag) := by
  simp only [← decrypt_eq_ok_iff]
  generalize g.decrypt nonce aad buffer tag = opened
  obtain ⟨result, plaintext⟩ := opened
  simp

/-- No ciphertext stands for two contents. -/
theorem encrypt_injective : Function.Injective (g.encrypt nonce aad) := by
  intro a b h
  have ha := g.decrypt_encrypt nonce aad a
  rw [h, g.decrypt_encrypt nonce aad b] at ha
  exact (Prod.mk.inj ha).2.symm

theorem existsUnique_encrypt_iff :
    (∃! plaintext, g.encrypt nonce aad plaintext = (buffer, tag)) ↔
      ∃ plaintext, g.encrypt nonce aad plaintext = (buffer, tag) := by
  refine ⟨ExistsUnique.exists, fun ⟨plaintext, h⟩ => ⟨plaintext, h, fun other hother => ?_⟩⟩
  exact g.encrypt_injective nonce aad (hother.trans h.symm)

/-- What is refused stays as it was. -/
theorem decrypt_eq_error_iff :
    g.decrypt nonce aad buffer tag = (.error .badRecordMac, buffer) ↔
      ∀ plaintext, g.encrypt nonce aad plaintext ≠ (buffer, tag) := by
  rw [← not_exists, ← decrypt_fst_eq_ok_iff]
  by_cases hagree : Bytes.agree (g.tag nonce aad buffer) tag = true
  · simp [decrypt, hagree]
  · simp [decrypt, hagree]

end Gcm

/-- A fragment without room for nonce and tag fails as a wrong tag does. -/
theorem Protection.unprotect_gcm_short (cipher : Gcm) (iv : Octets 4) (context : RecordContext)
    {fragment : Bytes} (h : fragment.length < gcmOverhead) (checkMac : Bool) :
    (Protection.gcm cipher iv).unprotect context fragment checkMac = .error .badRecordMac := by
  simp only [unprotect, h, if_true]

/-- Every fragment that is long enough has the parts of a GCM fragment. -/
theorem Protection.exists_parts {fragment : Bytes} (h : gcmOverhead ≤ fragment.length) :
    ∃ explicit ciphertext tag, fragment = explicit ++ (ciphertext ++ tag) ∧
      explicit.length = explicitNonceLength ∧ tag.length = Gcm.tagLength := by
  have hoverhead : gcmOverhead = explicitNonceLength + Gcm.tagLength := rfl
  refine ⟨fragment.take explicitNonceLength,
    (fragment.drop explicitNonceLength).take (fragment.length - gcmOverhead),
    (fragment.drop explicitNonceLength).drop (fragment.length - gcmOverhead), ?_, ?_, ?_⟩
  · rw [List.take_append_drop, List.take_append_drop]
  · rw [List.length_take]
    omega
  · rw [List.length_drop, List.length_drop]
    omega

/-- A buffer opens exactly when it is an encryption under the tag, and then to the one plaintext that
it is the encryption of; a buffer that does not open is unchanged. The fragment of a record opens
exactly when its last 16 bytes are the tag for the nonce that it brings and the header that is expected
of it. -/
theorem Gcm.accepts_encrypted (g : Gcm) :
    (∀ nonce aad buffer tag,
      ((g.decrypt nonce aad buffer tag).1 = .ok () ↔
        ∃ plaintext, g.encrypt nonce aad plaintext = (buffer, tag)) ∧
      ((∃! plaintext, g.encrypt nonce aad plaintext = (buffer, tag)) ↔
        ∃ plaintext, g.encrypt nonce aad plaintext = (buffer, tag)) ∧
      (∀ plaintext, g.decrypt nonce aad buffer tag = (.ok (), plaintext) ↔
        g.encrypt nonce aad plaintext = (buffer, tag)) ∧
      (g.decrypt nonce aad buffer tag = (.error .badRecordMac, buffer) ↔
        ∀ plaintext, g.encrypt nonce aad plaintext ≠ (buffer, tag)) ∧
      ∀ plaintext, (g.encrypt nonce aad plaintext).2.length = 16) ∧
    ∀ iv context fragment checkMac,
      (fragment.length < 24 →
        (Protection.gcm g iv).unprotect context fragment checkMac = .error .badRecordMac) ∧
      (24 ≤ fragment.length → ∃ explicit ciphertext tag,
        fragment = explicit ++ (ciphertext ++ tag) ∧ explicit.length = 8 ∧ tag.length = 16 ∧
        (Protection.gcm g iv).unprotect context fragment checkMac =
          if tag = g.tag (Protection.nonce iv explicit) (Bytes.ofNat 8 context.sequence.toNat ++
            [context.contentType.code] ++ Bytes.ofNat 2 context.version.code.toNat ++
            Bytes.ofNat 2 (ciphertext.length % 2 ^ 16)) ciphertext
          then .ok (g.crypt (Protection.nonce iv explicit) ciphertext)
          else .error .badRecordMac) := by
  constructor
  · intro nonce aad buffer tag
    exact ⟨g.decrypt_fst_eq_ok_iff nonce aad buffer tag,
      g.existsUnique_encrypt_iff nonce aad buffer tag, g.decrypt_eq_ok_iff nonce aad buffer tag,
      g.decrypt_eq_error_iff nonce aad buffer tag, g.length_encrypt_snd nonce aad⟩
  · intro iv context fragment checkMac
    refine ⟨fun h => Protection.unprotect_gcm_short g iv context h checkMac, fun h => ?_⟩
    obtain ⟨explicit, ciphertext, tag, rfl, hexplicit, htag⟩ := Protection.exists_parts h
    refine ⟨explicit, ciphertext, tag, rfl, hexplicit, htag, ?_⟩
    rw [← RecordContext.header_eq]
    exact Protection.unprotect_gcm_append g iv context hexplicit htag checkMac

/-- An encryption of five bytes, a fragment that is too short by a byte, and one that is all nonce and
tag. -/
theorem Gcm.five_bytes_accepted :
    (∃ buffer tag, (Gcm.ofKey (.ofBytes [])).decrypt (.ofBytes 12 [1]) [2, 3] buffer tag =
      (.ok (), [4, 5, 6, 7, 8])) ∧
    (Protection.gcm (Gcm.ofKey (.ofBytes [])) (.ofBytes 4 [])).unprotect ⟨0, .handshake, .tls12⟩
      (List.replicate 23 0) true = .error .badRecordMac ∧
    ∃ explicit ciphertext tag, List.replicate 24 (0 : UInt8) = explicit ++ (ciphertext ++ tag) ∧
      explicit.length = 8 ∧ tag.length = 16 := by
  obtain ⟨hbuffers, hrecords⟩ := Gcm.accepts_encrypted (Gcm.ofKey (.ofBytes []))
  refine ⟨⟨_, _, ((hbuffers (.ofBytes 12 [1]) [2, 3] _ _).2.2.1 [4, 5, 6, 7, 8]).2 rfl⟩, ?_, ?_⟩
  · exact (hrecords (.ofBytes 4 []) ⟨0, .handshake, .tls12⟩ (List.replicate 23 0) true).1 (by decide)
  · obtain ⟨explicit, ciphertext, tag, hparts, hexplicit, htag, -⟩ :=
      (hrecords (.ofBytes 4 []) ⟨0, .handshake, .tls12⟩ (List.replicate 24 0) true).2 (by decide)
    exact ⟨explicit, ciphertext, tag, hparts, hexplicit, htag⟩

namespace Protection

/-- A content is shorter than the fragment that it was in. -/
theorem length_le_of_unprotect {p : Protection} {context : RecordContext} {fragment content : Bytes}
    {checkMac : Bool} (h : p.unprotect context fragment checkMac = .ok content) :
    content.length ≤ fragment.length := by
  cases p with
  | gcm cipher iv =>
    by_cases hlong : gcmOverhead ≤ fragment.length
    · obtain ⟨explicit, ciphertext, tag, rfl, hexplicit, htag⟩ := exists_parts hlong
      rw [unprotect_gcm_append cipher iv context hexplicit htag] at h
      split at h
      · rw [← Except.ok.inj h, Gcm.length_crypt, List.length_append, List.length_append]
        omega
      · cases h
    · rw [unprotect_gcm_short cipher iv context (Nat.not_le.1 hlong)] at h
      cases h
  | cbc keys macKey =>
    obtain ⟨code, -, -, iv, body, q, -, hencrypt, rfl⟩ :=
      (unprotect_cbc_eq_ok_iff keys macKey context fragment checkMac content).1 h
    rw [List.length_append, keys.length_of_cbcEncrypt _ hencrypt, List.length_append,
      List.length_append]
    omega

/-- A fragment opens exactly when it is an initial vector and the encryption of a content, its
authentication code and padding of any length, and otherwise gives one and the same error. If the code
is not checked then any 32 bytes stand for it. -/
theorem accepts_wrapped (keys : Aes.RoundKeys) (macKey : Bytes) (context : RecordContext)
    (fragment : Bytes) :
    (∀ content, (Protection.cbc keys macKey).unprotect context fragment true = .ok content ↔
      Wraps keys (content ++ Hmac.mac macKey (Bytes.ofNat 8 context.sequence.toNat ++
        [context.contentType.code] ++ Bytes.ofNat 2 context.version.code.toNat ++
        Bytes.ofNat 2 (content.length % 2 ^ 16) ++ content)) fragment) ∧
    (∀ content, (Protection.cbc keys macKey).unprotect context fragment false = .ok content ↔
      ∃ code, code.length = 32 ∧ Wraps keys (content ++ code) fragment) ∧
    (∀ checkMac,
      (∃ content, (Protection.cbc keys macKey).unprotect context fragment checkMac = .ok content) ∨
        (Protection.cbc keys macKey).unprotect context fragment checkMac = .error .badRecordMac) ∧
    ∀ content, (Protection.cbc keys macKey).unprotect context fragment true = .ok content →
      (Protection.cbc keys macKey).unprotect context fragment false = .ok content := by
  have hopens := unprotect_cbc_eq_ok_iff keys macKey context fragment
  refine ⟨fun content => ?_, fun content => ?_,
    unprotect_cbc_ok_or_error keys macKey context fragment, fun content h => ?_⟩
  · rw [hopens, ← mac_eq]
    constructor
    · rintro ⟨code, -, hcode, h⟩
      rwa [← hcode rfl]
    · exact fun h => ⟨_, length_mac macKey context content, fun _ => rfl, h⟩
  · simp only [hopens, Bool.false_eq_true, false_implies, true_and]
    rfl
  · obtain ⟨code, hcode, -, hwraps⟩ := (hopens true content).1 h
    exact (hopens false content).2 ⟨code, hcode, nofun, hwraps⟩

/-- A fragment with a block of padding more than it needs opens, checked or not. -/
theorem long_padding_accepted : ∃ body,
    (Aes.RoundKeys.ofKey (.ofBytes [])).cbcEncrypt (.ofBytes (List.replicate 16 7))
      ([1, 2, 3] ++ Hmac.mac (List.replicate 32 9)
        [0, 0, 0, 0, 0, 0, 0, 5, 23, 3, 3, 0, 3, 1, 2, 3] ++ List.replicate 29 28) = (.ok (), body) ∧
    ∀ checkMac, (Protection.cbc (Aes.RoundKeys.ofKey (.ofBytes [])) (List.replicate 32 9)).unprotect
      ⟨5, .applicationData, .tls12⟩ (List.replicate 16 7 ++ body) checkMac = .ok [1, 2, 3] := by
  have hwhole : Aes.blockLength ∣ ([1, 2, 3] ++ Hmac.mac (List.replicate 32 9)
      [0, 0, 0, 0, 0, 0, 0, 5, 23, 3, 3, 0, 3, 1, 2, 3] ++ List.replicate 29 28).length := by
    rw [List.length_append, List.length_append, Hmac.length_mac]
    decide
  have hencrypt := (Aes.RoundKeys.ofKey (.ofBytes [])).cbcEncrypt_eq
    (.ofBytes (List.replicate 16 7)) hwhole
  refine ⟨_, hencrypt, fun checkMac => ?_⟩
  obtain ⟨htrue, -, -, hfalse⟩ := accepts_wrapped (Aes.RoundKeys.ofKey (.ofBytes []))
    (List.replicate 32 9) ⟨5, .applicationData, .tls12⟩ _
  have hchecked := (htrue [1, 2, 3]).2 ⟨_, _, 28, List.length_replicate, hencrypt, rfl⟩
  cases checkMac with
  | true => exact hchecked
  | false => exact hfalse _ hchecked

end Protection
end TlsClient
