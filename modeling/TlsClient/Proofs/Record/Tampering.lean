import TlsClient.Proofs.Gcm.Hash
import TlsClient.Proofs.Record.Fragments

namespace TlsClient

namespace Gcm

/-- The second string is the first with some bytes altered, all of them in one block of 16. -/
def AlteredInBlock (bs altered : Bytes) : Prop :=
  altered.length = bs.length ∧ altered ≠ bs ∧ ∃ k, ∀ i, i / 16 ≠ k → altered[i]? = bs[i]?

/-- Another byte in one place is an alteration in one block. -/
theorem alteredInBlock_set {bs : Bytes} {i : ℕ} {v : UInt8} (hi : i < bs.length) (hv : v ≠ bs[i]) :
    AlteredInBlock bs (bs.set i v) := by
  refine ⟨List.length_set, fun h => hv ?_, i / 16, fun j hj => ?_⟩
  · have hget := List.getElem_of_eq h (by rwa [List.length_set])
    rwa [List.getElem_set_self] at hget
  · exact List.getElem?_set_ne fun hij => hj (by rw [hij])

theorem elements_of_ne_nil {bs : Bytes} (h : bs ≠ []) :
    elements bs = Element.ofBytes (bs.take 16) :: elements (bs.drop 16) := by
  rw [elements, Bytes.chunks_of_ne_nil (by decide) h, List.map_cons, elements]

/-- One element differs, and the elements before and after it are the same. -/
theorem AlteredInBlock.elements {bs altered : Bytes} (h : AlteredInBlock bs altered) :
    ∃ before x y after, elements bs = before ++ x :: after ∧
      elements altered = before ++ y :: after ∧ x ≠ y := by
  obtain ⟨hlength, hne, k, hsame⟩ := h
  have hbefore : altered.take (16 * k) = bs.take (16 * k) := by
    apply List.ext_getElem?
    intro i
    rw [List.getElem?_take, List.getElem?_take]
    split
    · exact hsame i (by omega)
    · rfl
  have hafter : (altered.drop (16 * k)).drop 16 = (bs.drop (16 * k)).drop 16 := by
    apply List.ext_getElem?
    intro i
    simp only [List.getElem?_drop]
    exact hsame _ (by omega)
  have hblock : (altered.drop (16 * k)).take 16 ≠ (bs.drop (16 * k)).take 16 := by
    intro hblock
    apply hne
    rw [← List.take_append_drop (16 * k) altered, ← List.take_append_drop (16 * k) bs, hbefore,
      ← List.take_append_drop 16 (altered.drop (16 * k)), hblock, hafter, List.take_append_drop]
  have hlong : 16 * k < bs.length := by
    by_contra hshort
    apply hblock
    rw [List.drop_of_length_le (by omega), List.drop_of_length_le (by omega)]
  have hsplit (cs : Bytes) (hcs : 16 * k < cs.length) : Gcm.elements cs =
      Gcm.elements (cs.take (16 * k)) ++ Element.ofBytes ((cs.drop (16 * k)).take 16) ::
        Gcm.elements ((cs.drop (16 * k)).drop 16) := by
    have hrest : cs.drop (16 * k) ≠ [] := by simp [hcs]
    have hdvd : 16 ∣ (cs.take (16 * k)).length := by
      rw [List.length_take, Nat.min_eq_left hcs.le]
      exact Nat.dvd_mul_right 16 k
    rw [← elements_of_ne_nil hrest, ← elements_append hdvd, List.take_append_drop]
  have haltered := hsplit altered (hlength ▸ hlong)
  rw [hbefore, hafter] at haltered
  refine ⟨_, _, _, _, hsplit bs hlong, haltered, fun helement => hblock ?_⟩
  refine Element.ofBytes_injective ?_ (List.length_take_le 16 _) helement.symm
  rw [List.length_take, List.length_take, List.length_drop, List.length_drop, hlength]

/-- Two values that differ stay different, whatever comes after them. -/
theorem foldl_injective {h : Element} (hh : h ≠ 0) (xs : List Element) :
    Function.Injective fun y => xs.foldl (fun y x => mul (y ^^^ x) h) y := by
  intro y y' heq
  induction xs generalizing y y' with
  | nil => exact heq
  | cons x xs ih => exact (BitVec.xor_left_inj x).1 (mul_right_cancel hh (ih heq))

/-- Two inputs that differ in one block have different hashes: the difference is multiplied by the
key, which is not zero, as often as blocks follow. -/
theorem foldl_ne {h : Element} (hh : h ≠ 0) {x y : Element} (hxy : x ≠ y)
    (before after : List Element) :
    (before ++ x :: after).foldl (fun y x => mul (y ^^^ x) h) 0 ≠
      (before ++ y :: after).foldl (fun y x => mul (y ^^^ x) h) 0 := by
  intro heq
  rw [List.foldl_append, List.foldl_append, List.foldl_cons, List.foldl_cons] at heq
  have hstep := mul_right_cancel hh (foldl_injective hh after heq)
  exact hxy ((BitVec.xor_right_inj _).1 hstep)

/-- Ciphertext that was altered in one block has another hash. -/
theorem hash_ne_of_ciphertext {h : Element} (hh : h ≠ 0) (aad : Bytes) {ciphertext altered : Bytes}
    (haltered : AlteredInBlock ciphertext altered) : hash h aad altered ≠ hash h aad ciphertext := by
  have hlengths : lengthElement aad altered = lengthElement aad ciphertext := by
    rw [lengthElement, lengthElement, haltered.1]
  obtain ⟨before, x, y, after, hciphertext, haltered, hxy⟩ := haltered.elements
  have hne := foldl_ne hh hxy.symm (elements aad ++ before)
    (after ++ [lengthElement aad ciphertext])
  simpa only [hash, hashInput, hlengths, hciphertext, haltered, List.append_assoc, List.cons_append]
    using hne

/-- So has additional data that was altered in one block. -/
theorem hash_ne_of_aad {h : Element} (hh : h ≠ 0) {aad altered : Bytes} (ciphertext : Bytes)
    (haltered : AlteredInBlock aad altered) : hash h altered ciphertext ≠ hash h aad ciphertext := by
  have hlengths : lengthElement altered ciphertext = lengthElement aad ciphertext := by
    rw [lengthElement, lengthElement, haltered.1]
  obtain ⟨before, x, y, after, haad, haltered, hxy⟩ := haltered.elements
  have hne := foldl_ne hh hxy.symm before
    (after ++ (elements ciphertext ++ [lengthElement aad ciphertext]))
  simpa only [hash, hashInput, hlengths, haad, haltered, List.append_assoc, List.cons_append]
    using hne

variable (g : Gcm) (nonce : Octets nonceLength)

/-- The tag is the hash with one block added, so different hashes make different tags. -/
theorem tag_ne {aad aad' ciphertext ciphertext' : Bytes}
    (h : hash g.hashKey aad ciphertext ≠ hash g.hashKey aad' ciphertext') :
    g.tag nonce aad ciphertext ≠ g.tag nonce aad' ciphertext' := by
  intro htag
  have hlength (x : Element) : x.toBytes.length ≤ (g.keystream nonce 1).length :=
    (Bytes.length_ofNat 16 x.toNat).le
  have hbytes := congrArg (Bytes.xor · (g.keystream nonce 1)) htag
  simp only [tag, Bytes.xor_xor_cancel (hlength _)] at hbytes
  exact h (Element.toBytes_injective hbytes)

/-- A tag that is not the computed one is refused, and the buffer is left alone. -/
theorem decrypt_of_tag_ne {aad buffer tag : Bytes} (h : g.tag nonce aad buffer ≠ tag) :
    g.decrypt nonce aad buffer tag = (.error .badRecordMac, buffer) := by
  have hagree : ¬ Bytes.agree (g.tag nonce aad buffer) tag = true := by rwa [Bytes.agree_iff]
  rw [decrypt, if_neg hagree]

theorem ofBytes_toBytes_ne_zero {s : Aes.Block} (h : s ≠ .ofBytes []) :
    Element.ofBytes s.toBytes ≠ 0 := by
  intro hzero
  have hzeros : Element.ofBytes (Aes.Block.ofBytes []).toBytes = 0 := rfl
  have hbytes := Element.ofBytes_injective (a := s.toBytes) (b := (Aes.Block.ofBytes []).toBytes) rfl
    s.length_toBytes.le (hzero.trans hzeros.symm)
  exact h (congrArg Aes.Block.ofBytes hbytes)

/-- What a tampered buffer is answered with, for every way to tamper with it. -/
theorem decrypt_of_altered {g : Gcm} (hkey : g.hashKey ≠ 0) (nonce : Octets nonceLength)
    (aad plaintext : Bytes) :
    (∀ altered, AlteredInBlock (g.encrypt nonce aad plaintext).1 altered →
      g.decrypt nonce aad altered (g.encrypt nonce aad plaintext).2 =
        (.error .badRecordMac, altered)) ∧
    (∀ altered, AlteredInBlock aad altered →
      g.decrypt nonce altered (g.encrypt nonce aad plaintext).1 (g.encrypt nonce aad plaintext).2 =
        (.error .badRecordMac, (g.encrypt nonce aad plaintext).1)) ∧
    ∀ tag, tag ≠ (g.encrypt nonce aad plaintext).2 →
      g.decrypt nonce aad (g.encrypt nonce aad plaintext).1 tag =
        (.error .badRecordMac, (g.encrypt nonce aad plaintext).1) := by
  simp only [encrypt]
  refine ⟨fun altered haltered => ?_, fun altered haltered => ?_, fun tag htag => ?_⟩
  · exact g.decrypt_of_tag_ne nonce (g.tag_ne nonce (hash_ne_of_ciphertext hkey aad haltered))
  · exact g.decrypt_of_tag_ne nonce (g.tag_ne nonce (hash_ne_of_aad hkey _ haltered))
  · exact g.decrypt_of_tag_ne nonce htag.symm

end Gcm

namespace Protection

/-- A byte of the ciphertext or of the tag is replaced in a fragment that opens. -/
theorem unprotect_gcm_set {cipher : Gcm} (hkey : cipher.hashKey ≠ 0) (iv : Octets 4)
    (context : RecordContext) {explicit ciphertext tag fragment : Bytes}
    (hexplicit : explicit.length = explicitNonceLength)
    (htag : tag = cipher.tag (nonce iv explicit) (context.header ciphertext.length) ciphertext)
    (hfragment : fragment = explicit ++ (ciphertext ++ tag)) {i : ℕ} (hi : i < fragment.length)
    (hnonce : explicitNonceLength ≤ i) {v : UInt8} (hv : v ≠ fragment[i]) (checkMac : Bool) :
    (Protection.gcm cipher iv).unprotect context (fragment.set i v) checkMac =
      .error .badRecordMac := by
  subst hfragment
  have hlength : tag.length = Gcm.tagLength := by rw [htag, Gcm.length_tag]
  rw [List.length_append, List.length_append] at hi
  rw [List.getElem_append_right (hexplicit.trans_le hnonce)] at hv
  rw [List.set_append_right _ _ (hexplicit.trans_le hnonce)]
  by_cases hciphertext : i - explicit.length < ciphertext.length
  · rw [List.getElem_append_left hciphertext] at hv
    have haltered := Gcm.alteredInBlock_set hciphertext hv
    have hne := cipher.tag_ne (nonce iv explicit)
      (Gcm.hash_ne_of_ciphertext hkey (context.header ciphertext.length) haltered)
    rw [List.set_append_left _ _ hciphertext,
      unprotect_gcm_append cipher iv context hexplicit hlength, haltered.1, if_neg]
    rw [htag]
    exact hne.symm
  · rw [List.getElem_append_right (not_lt.1 hciphertext)] at hv
    rw [List.set_append_right _ _ (not_lt.1 hciphertext),
      unprotect_gcm_append cipher iv context hexplicit (List.length_set.trans hlength), if_neg]
    rw [← htag]
    intro hset
    have hplace : i - explicit.length - ciphertext.length <
        (tag.set (i - explicit.length - ciphertext.length) v).length := by
      rw [List.length_set]
      omega
    have hget := List.getElem_of_eq hset hplace
    rw [List.getElem_set_self] at hget
    exact hv hget

/-- A GCM fragment is the sequence number, the ciphertext, and the tag under the header that a reader
of the fragment makes from the length of the ciphertext. -/
theorem protect_gcm_eq {ρ : Type} [RandomSource ρ] (cipher : Gcm) (iv : Octets 4)
    (context : RecordContext) (content : Bytes) (r : ρ) :
    ∃ explicit ciphertext, explicit.length = explicitNonceLength ∧
      ((Protection.gcm cipher iv).protect context content r).1 = explicit ++ (ciphertext ++
        cipher.tag (nonce iv explicit) (context.header ciphertext.length) ciphertext) := by
  refine ⟨Bytes.ofNat explicitNonceLength context.sequence.toNat,
    cipher.crypt (nonce iv (Bytes.ofNat explicitNonceLength context.sequence.toNat)) content,
    Bytes.length_ofNat _ _, ?_⟩
  rw [Gcm.length_crypt]
  exact List.append_assoc _ _ _

end Protection

/-- Under a key that does not encrypt the zero block to itself, a buffer is refused, and left alone, if
its ciphertext or its additional data is altered within one block or if its tag is another one; and a
sealed record is refused if any byte behind the nonce is replaced. -/
theorem Gcm.tampering_detected (key : Aes.Block)
    (hkey : (Aes.RoundKeys.ofKey key).encrypt (.ofBytes []) ≠ .ofBytes []) :
    (∀ nonce aad plaintext ciphertext tag,
      (Gcm.ofKey key).encrypt nonce aad plaintext = (ciphertext, tag) →
      (∀ altered, AlteredInBlock ciphertext altered →
        (Gcm.ofKey key).decrypt nonce aad altered tag = (.error .badRecordMac, altered)) ∧
      (∀ altered, AlteredInBlock aad altered →
        (Gcm.ofKey key).decrypt nonce altered ciphertext tag = (.error .badRecordMac, ciphertext)) ∧
      ∀ altered, altered ≠ tag →
        (Gcm.ofKey key).decrypt nonce aad ciphertext altered = (.error .badRecordMac, ciphertext)) ∧
    ∀ {ρ : Type} [RandomSource ρ] (r : ρ) iv context content buffer, ∃ fragment,
      (Protection.gcm (Gcm.ofKey key) iv).sealInto context content buffer r =
        (.ok (), buffer ++ fragment, r) ∧
      fragment.length = content.length + 24 ∧
      ∀ i (hi : i < fragment.length), 8 ≤ i → ∀ v, v ≠ fragment[i] → ∀ checkMac,
        (Protection.gcm (Gcm.ofKey key) iv).unprotect context (fragment.set i v) checkMac =
          .error .badRecordMac := by
  have hhash : (Gcm.ofKey key).hashKey ≠ 0 := ofBytes_toBytes_ne_zero hkey
  constructor
  · intro nonce aad plaintext ciphertext tag hencrypt
    have haltered := decrypt_of_altered hhash nonce aad plaintext
    rwa [hencrypt] at haltered
  · intro ρ _ r iv context content buffer
    refine ⟨_, Protection.sealInto_eq (.gcm (ofKey key) iv) context content buffer r,
      Protection.length_protect_gcm _ iv context content r, fun i hi hnonce v hv checkMac => ?_⟩
    obtain ⟨explicit, ciphertext, hexplicit, hfragment⟩ :=
      Protection.protect_gcm_eq (ofKey key) iv context content r
    exact Protection.unprotect_gcm_set hhash iv context hexplicit rfl hfragment hi hnonce hv checkMac

/-- Two bytes of a ciphertext, a byte of the additional data and the length of a tag are altered, and
the last byte of a record. -/
theorem Gcm.three_bytes_detected :
    (Gcm.ofKey (.ofBytes [])).encrypt (.ofBytes 12 []) [1, 2, 3] [0, 0, 0] =
      ([3, 136, 218], [155, 80, 3, 39, 82, 145, 190, 16, 55, 9, 21, 83, 69, 73, 177, 251]) ∧
    (Gcm.ofKey (.ofBytes [])).decrypt (.ofBytes 12 []) [1, 2, 3] [3, 0, 0]
      [155, 80, 3, 39, 82, 145, 190, 16, 55, 9, 21, 83, 69, 73, 177, 251] =
      (.error .badRecordMac, [3, 0, 0]) ∧
    (Gcm.ofKey (.ofBytes [])).decrypt (.ofBytes 12 []) [1, 9, 3] [3, 136, 218]
      [155, 80, 3, 39, 82, 145, 190, 16, 55, 9, 21, 83, 69, 73, 177, 251] =
      (.error .badRecordMac, [3, 136, 218]) ∧
    (Gcm.ofKey (.ofBytes [])).decrypt (.ofBytes 12 []) [1, 2, 3] [3, 136, 218]
      [155, 80, 3, 39, 82, 145, 190, 16, 55, 9, 21, 83, 69, 73, 177] =
      (.error .badRecordMac, [3, 136, 218]) ∧
    ∃ fragment, (Protection.gcm (Gcm.ofKey (.ofBytes [])) (.ofBytes 4 [])).sealInto
      ⟨5, .applicationData, .tls12⟩ [104, 105] [7] (ScriptedSource.ofBytes []) =
        (.ok (), [7] ++ fragment, ScriptedSource.ofBytes []) ∧
      ∃ h : 25 < fragment.length,
        (Protection.gcm (Gcm.ofKey (.ofBytes [])) (.ofBytes 4 [])).unprotect
          ⟨5, .applicationData, .tls12⟩ (fragment.set 25 (fragment[25] ^^^ 1)) true =
            .error .badRecordMac := by
  have hencrypt : (Gcm.ofKey (.ofBytes [])).encrypt (.ofBytes 12 []) [1, 2, 3] [0, 0, 0] =
      ([3, 136, 218], [155, 80, 3, 39, 82, 145, 190, 16, 55, 9, 21, 83, 69, 73, 177, 251]) := by
    decide +kernel
  obtain ⟨hbuffers, hrecords⟩ := Gcm.tampering_detected (.ofBytes []) (by decide +kernel)
  obtain ⟨hciphertext, haad, htag⟩ := hbuffers _ _ _ _ _ hencrypt
  obtain ⟨fragment, hseal, hlength, hopen⟩ := hrecords (ScriptedSource.ofBytes []) (.ofBytes 4 [])
    ⟨5, .applicationData, .tls12⟩ [104, 105] [7]
  have hlast : 25 < fragment.length := by
    rw [hlength]
    decide
  have hflip : ∀ b : UInt8, b ^^^ 1 ≠ b := Aes.forall_byte (by decide +kernel)
  have hbehind (bs : Bytes) (hbs : bs.length ≤ 16) (i : ℕ) (hi : i / 16 ≠ 0) : bs[i]? = none :=
    List.getElem?_eq_none (by omega)
  have hsame (a b : Bytes) (ha : a.length ≤ 16) (hb : b.length ≤ 16) (i : ℕ) (hi : i / 16 ≠ 0) :
      a[i]? = b[i]? := (hbehind a ha i hi).trans (hbehind b hb i hi).symm
  refine ⟨hencrypt, ?_, ?_, htag _ (by decide), fragment, hseal, hlast, ?_⟩
  · exact hciphertext _ ⟨rfl, by decide, 0, hsame _ _ (by decide) (by decide)⟩
  · exact haad _ ⟨rfl, by decide, 0, hsame _ _ (by decide) (by decide)⟩
  · exact hopen 25 hlast (by decide) _ (hflip _) true

end TlsClient
