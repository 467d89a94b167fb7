import TlsClient.Proofs.Aes.Chaining
import TlsClient.Record.Protection

namespace TlsClient

namespace Protection

/-- The padding brings the content to whole blocks and says how long it is. -/
theorem padding_eq (n : Nat) :
    padding n = List.replicate (15 - n % 16 + 1) (UInt8.ofNat (15 - n % 16)) := rfl

@[simp] theorem length_padding (n : Nat) : (padding n).length = 16 - n % 16 := by
  rw [padding_eq, List.length_replicate]
  omega

theorem dvd_length_append_padding (data : Bytes) :
    Aes.blockLength ∣ (data ++ padding data.length).length := by
  rw [List.length_append, length_padding, Aes.blockLength]
  omega

theorem exists_padding_eq (n : Nat) :
    ∃ q : UInt8, padding n = List.replicate (q.toNat + 1) q := by
  have hvalue : (UInt8.ofNat (15 - n % 16)).toNat = 15 - n % 16 :=
    UInt8.toNat_ofNat_of_lt' (Nat.lt_of_le_of_lt (Nat.sub_le _ _) (by decide))
  refine ⟨UInt8.ofNat (15 - n % 16), ?_⟩
  rw [padding_eq, hvalue]

/-- Padding of any length comes off: `q + 1` bytes of value `q`, with room for a MAC before them. -/
theorem unpad_eq_some_iff (data signed : Bytes) :
    unpad data = some signed ↔
      macLength ≤ signed.length ∧
        ∃ q : UInt8, data = signed ++ List.replicate (q.toNat + 1) q := by
  constructor
  · intro h
    rw [unpad] at h
    split at h
    · simp at h
    · rename_i q hlast
      obtain ⟨hroom, h⟩ := Option.ite_none_left_eq_some.1 h
      obtain ⟨hall, hsigned⟩ := Option.ite_none_right_eq_some.1 h
      have hrest : data.drop (data.length - q.toNat - 1) = List.replicate (q.toNat + 1) q := by
        rw [List.eq_replicate_iff, List.length_drop]
        exact ⟨by omega, by simpa using hall⟩
      refine ⟨?_, q, ?_⟩
      · rw [← Option.some.inj hsigned, List.length_take]
        omega
      · rw [← Option.some.inj hsigned, ← hrest, List.take_append_drop]
  · rintro ⟨hlong, q, rfl⟩
    have hlast : (signed ++ List.replicate (q.toNat + 1) q).getLast? = some q := by
      rw [List.getLast?_append_of_ne_nil _ (by simp), List.getLast?_replicate]
      simp
    have hlength : (signed ++ List.replicate (q.toNat + 1) q).length =
        signed.length + q.toNat + 1 := by
      rw [List.length_append, List.length_replicate]
      omega
    have hstart : signed.length + q.toNat + 1 - q.toNat - 1 = signed.length := by omega
    have hroom : ¬ q.toNat + 1 + macLength > signed.length + q.toNat + 1 := by omega
    have hall : (List.replicate (q.toNat + 1) q).all (· == q) = true := by simp
    simp only [unpad, hlast, hlength, hroom, if_false, hstart, List.drop_left, List.take_left, hall,
      if_true]

/-- The fragment is an initial vector and the encryption of a string and `q + 1` padding bytes of
value `q`. -/
def Wraps (keys : Aes.RoundKeys) (signed fragment : Bytes) : Prop :=
  ∃ iv body, ∃ q : UInt8, iv.length = 16 ∧
    keys.cbcEncrypt (.ofBytes iv) (signed ++ List.replicate (q.toNat + 1) q) = (.ok (), body) ∧
    fragment = iv ++ body

@[simp] theorem length_mac (macKey : Bytes) (context : RecordContext) (content : Bytes) :
    (mac macKey context content).length = macLength := by
  rw [mac, Hmac.length_finish, macLength]

/-- The code is compared only if that is asked for. -/
theorem ite_agree_eq_ok_iff {checkMac : Bool} {expected received content opened : Bytes} :
    (if checkMac && !Bytes.agree expected received then Except.error Error.badRecordMac
      else .ok opened) = .ok content ↔
      (checkMac = true → received = expected) ∧ opened = content := by
  have hagree : (checkMac && !Bytes.agree expected received) = true ↔
      ¬ (checkMac = true → received = expected) := by
    rw [Bool.and_eq_true, Bool.not_eq_true', Bool.eq_false_iff, ne_eq, Bytes.agree_iff,
      eq_comm (a := expected)]
    tauto
  by_cases h : checkMac = true → received = expected
  · rw [if_neg (mt hagree.1 (not_not.2 h)), Except.ok.injEq]
    exact (and_iff_right h).symm
  · rw [if_pos (hagree.2 h)]
    simp [h]

/-- A long enough fragment of whole blocks is opened by its parts: the initial vector and the rest. -/
theorem unprotect_cbc_append (keys : Aes.RoundKeys) (macKey : Bytes) (context : RecordContext)
    {iv body : Bytes} (hiv : iv.length = Aes.blockLength) (hlong : 3 * Aes.blockLength ≤ body.length)
    (hwhole : Aes.blockLength ∣ body.length) (checkMac : Bool) (content : Bytes) :
    (Protection.cbc keys macKey).unprotect context (iv ++ body) checkMac = .ok content ↔
      ∃ code, code.length = macLength ∧ (checkMac = true → code = mac macKey context content) ∧
        unpad (Aes.Block.join (keys.chainDecrypt (.ofBytes iv) (Aes.Block.split body))) =
          some (content ++ code) := by
  have hshape : ¬ ((iv ++ body).length < cbcMinimum ∨ (iv ++ body).length % Aes.blockLength ≠ 0) := by
    simp only [List.length_append, cbcMinimum, Aes.blockLength] at hiv hlong hwhole ⊢
    omega
  have hparts : (iv ++ body).splitAt Aes.blockLength = (iv, body) := by
    rw [List.splitAt_eq, ← hiv, List.take_left, List.drop_left]
  simp only [unprotect, hshape, if_false, hparts]
  cases hunpad : unpad (Aes.Block.join (keys.chainDecrypt (.ofBytes iv) (Aes.Block.split body))) with
  | none => simp
  | some signed =>
    have hroom := ((unpad_eq_some_iff _ _).1 hunpad).1
    simp only [List.splitAt_eq, Option.some.injEq, ite_agree_eq_ok_iff]
    constructor
    · rintro ⟨hchecked, rfl⟩
      refine ⟨signed.drop (signed.length - macLength), ?_, hchecked, ?_⟩
      · rw [List.length_drop]
        omega
      · rw [List.take_append_drop]
    · rintro ⟨code, hcode, hchecked, rfl⟩
      have hlength : (content ++ code).length - macLength = content.length := by
        rw [List.length_append, hcode, Nat.add_sub_cancel]
      rw [hlength, List.take_left, List.drop_left]
      exact ⟨hchecked, rfl⟩

/-- Whatever is wrong with a fragment, the error is the same. -/
theorem unprotect_cbc_ok_or_error (keys : Aes.RoundKeys) (macKey : Bytes) (context : RecordContext)
    (fragment : Bytes) (checkMac : Bool) :
    (∃ content, (Protection.cbc keys macKey).unprotect context fragment checkMac = .ok content) ∨
      (Protection.cbc keys macKey).unprotect context fragment checkMac = .error .badRecordMac := by
  simp only [unprotect]
  split
  · exact .inr rfl
  · split
    · exact .inr rfl
    · split
      · exact .inr rfl
      · exact .inl ⟨_, rfl⟩

/-- A fragment opens exactly if it wraps the content and an authentication code of the right length,
which is that of the content if it is checked. -/
theorem unprotect_cbc_eq_ok_iff (keys : Aes.RoundKeys) (macKey : Bytes) (context : RecordContext)
    (fragment : Bytes) (checkMac : Bool) (content : Bytes) :
    (Protection.cbc keys macKey).unprotect context fragment checkMac = .ok content ↔
      ∃ code, code.length = macLength ∧ (checkMac = true → code = mac macKey context content) ∧
        Wraps keys (content ++ code) fragment := by
  constructor
  · intro h
    by_cases hshape : fragment.length < cbcMinimum ∨ fragment.length % Aes.blockLength ≠ 0
    · simp only [unprotect, hshape, if_true] at h
      simp at h
    · have hfragment := List.take_append_drop Aes.blockLength fragment
      have hiv : (fragment.take Aes.blockLength).length = Aes.blockLength := by
        rw [List.length_take]
        simp only [cbcMinimum, Aes.blockLength] at hshape ⊢
        omega
      have hlong : 3 * Aes.blockLength ≤ (fragment.drop Aes.blockLength).length := by
        rw [List.length_drop]
        simp only [cbcMinimum] at hshape
        omega
      have hwhole : Aes.blockLength ∣ (fragment.drop Aes.blockLength).length :=
        Bytes.dvd_length_drop (Nat.dvd_of_mod_eq_zero (not_not.1 (not_or.1 hshape).2))
      rw [← hfragment, unprotect_cbc_append keys macKey context hiv hlong hwhole] at h
      obtain ⟨code, hcode, hchecked, hunpad⟩ := h
      obtain ⟨-, q, hdata⟩ := (unpad_eq_some_iff _ _).1 hunpad
      exact ⟨code, hcode, hchecked, _, _, q, hiv,
        (keys.cbcEncrypt_eq_ok_iff _ _ _).2 ⟨hwhole, hdata⟩, hfragment.symm⟩
  · rintro ⟨code, hcode, hchecked, iv, body, q, hiv, hencrypt, rfl⟩
    have hlength := keys.length_of_cbcEncrypt _ hencrypt
    obtain ⟨hwhole, hdata⟩ := (keys.cbcEncrypt_eq_ok_iff _ _ _).1 hencrypt
    -- A MAC and a byte of padding take three blocks at least.
    have hlong : 3 * Aes.blockLength ≤ body.length := by
      simp only [List.length_append, List.length_replicate] at hlength
      simp only [Aes.blockLength, macLength, Sha256.digestLength] at hwhole hcode ⊢
      omega
    rw [unprotect_cbc_append keys macKey context hiv hlong hwhole, hdata]
    refine ⟨code, hcode, hchecked, (unpad_eq_some_iff _ _).2 ⟨?_, q, rfl⟩⟩
    rw [List.length_append, hcode]
    exact Nat.le_add_left _ _

end Protection
end TlsClient
