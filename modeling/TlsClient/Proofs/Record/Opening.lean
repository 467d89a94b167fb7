import TlsClient.Message.Record
import TlsClient.Proofs.Record.Wrapping

namespace TlsClient

namespace Gcm

variable (g : Gcm) (nonce : Octets nonceLength)

@[simp] theorem length_keystream (counter : UInt32) : (g.keystream nonce counter).length = 16 := rfl

theorem length_xor_keystream (counter : UInt32) {piece : Bytes} (h : piece.length ≤ 16) :
    (Bytes.xor piece (g.keystream nonce counter)).length = piece.length := by
  rw [Bytes.length_xor, length_keystream, Nat.min_eq_left h]

theorem length_addKeystream (counter : UInt32) (data : Bytes) :
    (g.addKeystream nonce counter (Bytes.chunks 16 data)).length = data.length := by
  induction data using Bytes.chunks_induction (k := 16) (by decide) generalizing counter with
  | nil => simp [Bytes.chunks_nil, addKeystream]
  | step data h ih =>
    rw [Bytes.chunks_of_ne_nil (by decide) h, addKeystream, List.length_append, ih,
      length_xor_keystream _ _ _ (List.length_take_le 16 data), ← List.length_append,
      List.take_append_drop]

/-- Adding the keystream again gives the plaintext back, piece by piece: the pieces of the ciphertext
are the pieces of the plaintext, each with its own part of the keystream. -/
theorem addKeystream_addKeystream (counter : UInt32) (data : Bytes) :
    g.addKeystream nonce counter
      (Bytes.chunks 16 (g.addKeystream nonce counter (Bytes.chunks 16 data))) = data := by
  induction data using Bytes.chunks_induction (k := 16) (by decide) generalizing counter with
  | nil => simp [Bytes.chunks_nil, addKeystream]
  | step data h ih =>
    have hfirst : (data.take 16).length ≤ 16 := List.length_take_le 16 data
    have hlength := g.length_xor_keystream nonce counter hfirst
    have hrest := g.length_addKeystream nonce (counter + 1) (data.drop 16)
    rw [Bytes.chunks_of_ne_nil (by decide) h, addKeystream]
    -- Of the first piece and of the rest only the lengths matter from here on.
    generalize hA : Bytes.xor (data.take 16) (g.keystream nonce counter) = A at hlength ⊢
    generalize hB : g.addKeystream nonce (counter + 1) (Bytes.chunks 16 (data.drop 16)) = B
      at hrest ⊢
    have hne : A ++ B ≠ [] := by
      intro hnil
      have hpos := List.length_pos_iff.2 h
      have hzero := congrArg List.length hnil
      simp only [List.length_append, List.length_nil, List.length_take] at hzero hlength
      omega
    -- A short piece is the last one, and then nothing follows it.
    have htake : (A ++ B).take 16 = A := by
      by_cases hlong : 16 ≤ data.length
      · have hA16 : A.length = 16 := by rw [hlength, List.length_take, Nat.min_eq_left hlong]
        rw [← hA16, List.take_left]
      · have hB0 : B = [] := by
          apply List.length_eq_zero_iff.1
          rw [hrest, List.length_drop]
          omega
        rw [hB0, List.append_nil]
        exact List.take_of_length_le (hlength ▸ hfirst)
    have hdrop : (A ++ B).drop 16 = B :=
      List.append_cancel_left (htake ▸ List.take_append_drop 16 (A ++ B))
    rw [Bytes.chunks_of_ne_nil (by decide) hne, htake, hdrop, addKeystream, ← hB, ih, ← hA,
      Bytes.xor_xor_cancel hfirst, List.take_append_drop]

@[simp] theorem length_crypt (data : Bytes) : (g.crypt nonce data).length = data.length :=
  g.length_addKeystream nonce 2 data

@[simp] theorem crypt_crypt (data : Bytes) : g.crypt nonce (g.crypt nonce data) = data :=
  g.addKeystream_addKeystream nonce 2 data

@[simp] theorem length_tag (aad ciphertext : Bytes) :
    (g.tag nonce aad ciphertext).length = tagLength := by
  rw [tag, Bytes.length_xor, Element.toBytes, Bytes.length_ofNat, length_keystream]
  rfl

/-- The keystream neither lengthens nor shortens what it is added to. -/
theorem length_encrypt_fst (aad plaintext : Bytes) :
    (g.encrypt nonce aad plaintext).1.length = plaintext.length := by
  simp only [encrypt, length_crypt]

theorem length_encrypt_snd (aad plaintext : Bytes) :
    (g.encrypt nonce aad plaintext).2.length = tagLength := by
  simp only [encrypt, length_tag]

/-- What was encrypted is decrypted under the same key, nonce and additional data. -/
theorem decrypt_encrypt (aad plaintext : Bytes) :
    g.decrypt nonce aad (g.encrypt nonce aad plaintext).1 (g.encrypt nonce aad plaintext).2 =
      (.ok (), plaintext) := by
  have hagree := (Bytes.agree_iff (g.tag nonce aad (g.crypt nonce plaintext)) _).2 rfl
  simp only [decrypt, encrypt, hagree, if_true, crypt_crypt]

end Gcm

namespace Protection

section
variable {ρ : Type} [RandomSource ρ]

/-- GCM adds 24 bytes to every content. -/
theorem length_protect_gcm (cipher : Gcm) (iv : Octets 4) (context : RecordContext)
    (content : Bytes) (r : ρ) :
    ((Protection.gcm cipher iv).protect context content r).1.length =
      content.length + gcmOverhead := by
  simp only [protect, List.length_append, Bytes.length_ofNat, Gcm.length_encrypt_fst,
    Gcm.length_encrypt_snd, gcmOverhead]
  omega

/-- What CBC makes of a content wraps it and its authentication code. -/
theorem wraps_protect_cbc (keys : Aes.RoundKeys) (macKey : Bytes) (context : RecordContext)
    (content : Bytes) (r : ρ) :
    Wraps keys (content ++ mac macKey context content)
      ((Protection.cbc keys macKey).protect context content r).1 := by
  have hwhole := dvd_length_append_padding (content ++ mac macKey context content)
  obtain ⟨q, hq⟩ := exists_padding_eq (content ++ mac macKey context content).length
  refine ⟨_, _, q, RandomSource.length_fill r Aes.blockLength, ?_, rfl⟩
  rw [← hq]
  exact keys.cbcEncrypt_eq _ hwhole

/-- CBC adds a vector, a code and padding to the next block, of which there is at least one byte. -/
theorem length_protect_cbc (keys : Aes.RoundKeys) (macKey : Bytes) (context : RecordContext)
    (content : Bytes) (r : ρ) :
    ((Protection.cbc keys macKey).protect context content r).1.length =
      16 + (content.length + 32 + (16 - (content.length + 32) % 16)) := by
  have hwhole := dvd_length_append_padding (content ++ mac macKey context content)
  have hbody := keys.length_of_cbcEncrypt _
    (keys.cbcEncrypt_eq (.ofBytes (RandomSource.fill r Aes.blockLength).1) hwhole)
  simp only [protect]
  rw [List.length_append, RandomSource.length_fill, hbody, List.length_append, length_padding,
    List.length_append, length_mac]
  rfl

/-- A content within its limit makes a fragment that a peer accepts. -/
theorem length_protect_le (p : Protection) (context : RecordContext) {content : Bytes} (r : ρ)
    (h : content.length ≤ Record.maxPlaintext) :
    (p.protect context content r).1.length ≤ Record.maxCiphertext := by
  have hlimit : Record.maxCiphertext = Record.maxPlaintext + 2048 := rfl
  cases p with
  | gcm cipher iv =>
    have hoverhead : gcmOverhead = 24 := rfl
    rw [length_protect_gcm]
    omega
  | cbc keys macKey =>
    rw [length_protect_cbc]
    omega

/-- A fragment is opened by its parts: the explicit nonce, the ciphertext and the tag. -/
theorem unprotect_gcm_append (cipher : Gcm) (iv : Octets 4) (context : RecordContext)
    {explicit ciphertext tag : Bytes} (hexplicit : explicit.length = explicitNonceLength)
    (htag : tag.length = Gcm.tagLength) (checkMac : Bool) :
    (Protection.gcm cipher iv).unprotect context (explicit ++ (ciphertext ++ tag)) checkMac =
      if tag = cipher.tag (nonce iv explicit) (context.header ciphertext.length) ciphertext then
        .ok (cipher.crypt (nonce iv explicit) ciphertext)
      else .error .badRecordMac := by
  have hlong : ¬ (explicit ++ (ciphertext ++ tag)).length < gcmOverhead := by
    rw [List.length_append, List.length_append, hexplicit, htag, gcmOverhead]
    omega
  have hrest : (ciphertext ++ tag).length - Gcm.tagLength = ciphertext.length := by
    rw [List.length_append, htag, Nat.add_sub_cancel]
  have hfirst : (explicit ++ (ciphertext ++ tag)).splitAt explicitNonceLength =
      (explicit, ciphertext ++ tag) := by
    rw [List.splitAt_eq, ← hexplicit, List.take_left, List.drop_left]
  have hsecond : (ciphertext ++ tag).splitAt ciphertext.length = (ciphertext, tag) := by
    rw [List.splitAt_eq, List.take_left, List.drop_left]
  simp only [unprotect, hlong, if_false, hfirst, hrest, hsecond, Gcm.decrypt, Bytes.agree_iff]
  by_cases h : tag = cipher.tag (nonce iv explicit) (context.header ciphertext.length) ciphertext
  · rw [if_pos h, if_pos h.symm]
  · rw [if_neg h, if_neg (Ne.symm h)]

/-- A record under GCM opens to its content, whether or not the code is to be checked. -/
theorem unprotect_protect_gcm (cipher : Gcm) (iv : Octets 4) (context : RecordContext)
    (content : Bytes) (r : ρ) (checkMac : Bool) :
    (Protection.gcm cipher iv).unprotect context
      ((Protection.gcm cipher iv).protect context content r).1 checkMac = .ok content := by
  have hopen := @unprotect_gcm_append cipher iv context
    (Bytes.ofNat explicitNonceLength context.sequence.toNat)
    (cipher.crypt (nonce iv (Bytes.ofNat explicitNonceLength context.sequence.toNat)) content)
    (cipher.tag (nonce iv (Bytes.ofNat explicitNonceLength context.sequence.toNat))
      (context.header content.length)
      (cipher.crypt (nonce iv (Bytes.ofNat explicitNonceLength context.sequence.toNat)) content))
    (Bytes.length_ofNat _ _) (Gcm.length_tag _ _ _ _) checkMac
  simp only [Gcm.length_crypt, Gcm.crypt_crypt, if_true] at hopen
  simpa only [protect, Gcm.encrypt, List.append_assoc] using hopen

/-- A record under CBC opens to its content, whether or not the code is checked. -/
theorem unprotect_protect_cbc (keys : Aes.RoundKeys) (macKey : Bytes) (context : RecordContext)
    (content : Bytes) (r : ρ) (checkMac : Bool) :
    (Protection.cbc keys macKey).unprotect context
      ((Protection.cbc keys macKey).protect context content r).1 checkMac = .ok content :=
  (unprotect_cbc_eq_ok_iff keys macKey context _ checkMac content).2
    ⟨_, length_mac macKey context content, fun _ => rfl,
      wraps_protect_cbc keys macKey context content r⟩

/-- A protected record opens to the content that it was made from. -/
theorem unprotect_protect (p : Protection) (context : RecordContext) (content : Bytes) (r : ρ)
    (checkMac : Bool) :
    p.unprotect context (p.protect context content r).1 checkMac = .ok content := by
  cases p with
  | gcm cipher iv => exact unprotect_protect_gcm cipher iv context content r checkMac
  | cbc keys macKey => exact unprotect_protect_cbc keys macKey context content r checkMac

end

end Protection
end TlsClient
