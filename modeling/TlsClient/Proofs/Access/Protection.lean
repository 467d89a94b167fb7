import TlsClient.Proofs.Access.Digests
import TlsClient.Proofs.Record.Wrapping

namespace TlsClient

namespace KeyMaterial.Checked

def ofKeyBlock (suite : CipherSuite) (block : Bytes) : Checked.Attempt CryptoFault KeyMaterial := do
  if suite.supported = false ∨ block.length < suite.keyBlockLength then
    throw (.keyBlockTooShort block.length suite)
  else
    let (clientMac, rest) ← Checked.splitAt suite.macKeyLength block
    let clientMac ← Checked.store 32 clientMac
    let (serverMac, rest) ← Checked.splitAt suite.macKeyLength rest
    let serverMac ← Checked.store 32 serverMac
    let (clientKey, rest) ← Checked.splitAt Aes.blockLength rest
    let clientKey ← Checked.block clientKey
    let (serverKey, rest) ← Checked.splitAt Aes.blockLength rest
    let serverKey ← Checked.block serverKey
    let (clientIv, rest) ← Checked.splitAt suite.fixedIvLength rest
    let clientIv ← Checked.store Aes.blockLength clientIv
    let (serverIv, _) ← Checked.splitAt suite.fixedIvLength rest
    let serverIv ← Checked.store Aes.blockLength serverIv
    return { client := ⟨clientMac, clientKey, clientIv⟩, server := ⟨serverMac, serverKey, serverIv⟩ }

/-- A block that is too short is refused before a key is cut off it. -/
theorem ofKeyBlock_eq (suite : CipherSuite) (block : Bytes) :
    ofKeyBlock suite block = Checked.outcome (KeyMaterial.ofKeyBlock suite block) := by
  unfold ofKeyBlock KeyMaterial.ofKeyBlock
  split
  · rfl
  · rename_i h
    have hmac : suite.macKeyLength ≤ 32 := by
      unfold CipherSuite.macKeyLength
      split <;> decide
    have hiv : suite.fixedIvLength ≤ Aes.blockLength := by
      unfold CipherSuite.fixedIvLength
      split <;> decide
    -- The block is as long as the six parts are together.
    have hlength : 2 * suite.macKeyLength + 2 * Aes.blockLength + 2 * suite.fixedIvLength ≤
        block.length := by
      cases suite with
      | unknown code => exact absurd (.inl rfl) h
      | _ => exact Nat.not_lt.1 fun hlt => h (.inr hlt)
    simp (disch := ((try simp only [List.length_drop, List.length_take]); omega)) only
      [Checked.splitAt_eq, Checked.store_eq, Checked.block_eq, Checked.liftM_bind,
        List.splitAt_eq]
    rfl

end KeyMaterial.Checked

/-- Zeros behind a byte string make no difference to the octets that it starts with. -/
theorem Octets.ofBytes_append_zeros (n k : Nat) (bs : Bytes) :
    ofBytes n ((bs ++ List.replicate k 0).take n) = ofBytes n bs := by
  ext i hi
  simp only [ofBytes, Vector.getElem_ofFn, List.getD_eq_getElem?_getD, List.getElem?_take, hi, if_true]
  by_cases h : i < bs.length
  · rw [List.getElem?_append_left h]
  · rw [List.getElem?_append_right (Nat.not_lt.1 h), List.getElem?_replicate,
      List.getElem?_eq_none (Nat.not_lt.1 h)]
    split <;> rfl

namespace Protection.Checked

def ofKeys (suite : CipherSuite) (keys : KeyMaterial) (side : Side) : Checked Protection := do
  let writer := keys.writer side
  if suite.aead then
    let array := writer.iv ++ List.replicate (Aes.blockLength - writer.iv.length) 0
    let iv ← Checked.slice 0 4 array
    return .gcm (Gcm.ofKey writer.key) (← Checked.octets 4 iv)
  else return .cbc (Aes.RoundKeys.ofKey writer.key) writer.macKey

theorem ofKeys_eq (suite : CipherSuite) (keys : KeyMaterial) (side : Side) :
    ofKeys suite keys side = .ok (Protection.ofKeys suite keys side) := by
  unfold ofKeys Protection.ofKeys
  dsimp only
  generalize keys.writer side = writer
  split
  · have hlength : 4 ≤ (writer.iv ++ List.replicate (Aes.blockLength - writer.iv.length) 0).length := by
      rw [List.length_append, List.length_replicate, Aes.blockLength]
      omega
    rw [Checked.slice_zero hlength, Checked.ok_bind,
      Checked.octets_eq (List.length_take_of_le hlength), Checked.ok_bind,
      Octets.ofBytes_append_zeros]
    rfl
  · rfl

def nonce (iv : Octets 4) (explicit : Octets explicitNonceLength) :
    Checked (Octets Gcm.nonceLength) := do
  let array ← Checked.fill Gcm.nonceLength 0 4 iv.toList []
  let array ← Checked.fill Gcm.nonceLength 4 Gcm.nonceLength explicit.toList array
  return .ofBytes _ array

theorem nonce_eq (iv : Octets 4) (explicit : Octets explicitNonceLength) :
    nonce iv explicit = .ok (Protection.nonce iv explicit.toList) := by
  rw [nonce, Checked.fill_eq (by decide) (by decide) iv.length_toList, Checked.ok_bind,
    Checked.fill_eq (by decide) (by decide) explicit.length_toList]
  rfl

def header (context : RecordContext) (length : Nat) : Checked Bytes := do
  let array ← Checked.fill 13 0 8 (Bytes.ofNat 8 context.sequence.toNat) []
  let array ← Checked.fill 13 8 9 [context.contentType.code] array
  let array ← Checked.fill 13 9 11 (Bytes.ofNat 2 context.version.code.toNat) array
  Checked.fill 13 11 13 (Bytes.ofNat 2 length) array

/-- The four parts of the authenticated header fill its 13 bytes exactly. -/
theorem header_eq (context : RecordContext) (length : Nat) :
    header context length = .ok (context.header length) := by
  simp [header, RecordContext.header, Checked.fill]

def mac (macKey : Bytes) (context : RecordContext) (content : Bytes) : Checked Bytes := do
  let m ← Hmac.Checked.ofKey macKey
  let m ← Hmac.Checked.update m (← header context content.length)
  Hmac.Checked.finish (← Hmac.Checked.update m content)

theorem mac_eq (macKey : Bytes) (context : RecordContext) (content : Bytes) :
    mac macKey context content = .ok (Protection.mac macKey context content) := by
  simp [mac, Protection.mac, header_eq, Hmac.Checked.ofKey_eq, Hmac.Checked.update_eq,
    Hmac.Checked.finish_eq]

def openGcm (cipher : Gcm) (iv : Octets 4) (context : RecordContext) (fragment : Bytes) :
    Checked.Attempt Error Bytes := do
  if fragment.length < gcmOverhead then throw .badRecordMac
  else
    let (explicit, rest) ← Checked.splitAt explicitNonceLength fragment
    let stop ← Checked.difference rest.length Gcm.tagLength
    let (ciphertext, tag) ← Checked.splitAt stop rest
    let nonce ← nonce iv (← Checked.octets explicitNonceLength explicit)
    let header ← header context ciphertext.length
    match cipher.decrypt nonce header ciphertext tag with
    | (.ok (), content) => return content
    | (.error e, _) => throw e

/-- A fragment too short for nonce and tag is refused before it is cut into its parts. -/
theorem openGcm_eq (cipher : Gcm) (iv : Octets 4) (context : RecordContext) (fragment : Bytes)
    (checkMac : Bool) : openGcm cipher iv context fragment =
      Checked.outcome ((Protection.gcm cipher iv).unprotect context fragment checkMac) := by
  unfold openGcm unprotect
  dsimp only
  split
  · rfl
  · rename_i h
    have hlong : explicitNonceLength + Gcm.tagLength ≤ fragment.length := Nat.not_lt.1 h
    have hexplicit : (fragment.take explicitNonceLength).length = explicitNonceLength :=
      List.length_take_of_le (by omega)
    have hrest : Gcm.tagLength ≤ (fragment.drop explicitNonceLength).length := by
      rw [List.length_drop]
      omega
    rw [Checked.splitAt_eq (by omega), Checked.liftM_bind, Checked.difference_eq hrest,
      Checked.liftM_bind, Checked.splitAt_eq (Nat.sub_le _ _), Checked.liftM_bind,
      Checked.octets_eq hexplicit, Checked.liftM_bind, nonce_eq, Checked.liftM_bind,
      header_eq, Checked.liftM_bind, Octets.toList_ofBytes hexplicit, List.splitAt_eq,
      List.splitAt_eq]
    dsimp only
    generalize cipher.decrypt _ _ _ _ = result
    rcases result with ⟨e | ⟨⟩, content⟩ <;> rfl

def chainDecrypt (keys : Aes.RoundKeys) : (previous : Aes.Block) → List Bytes → Checked Bytes
  | _, [] => return []
  | previous, piece :: pieces => do
    let c ← Checked.block piece
    let plain := ((keys.decrypt c).xor previous).toBytes
    Checked.touch (.copy plain.length piece.length)
    return plain ++ (← chainDecrypt keys c pieces)

theorem chainDecrypt_eq (keys : Aes.RoundKeys) (previous : Aes.Block) {pieces : List Bytes}
    (h : ∀ piece ∈ pieces, piece.length = Aes.blockLength) :
    chainDecrypt keys previous pieces =
      .ok (Aes.Block.join (keys.chainDecrypt previous (pieces.map .ofBytes))) := by
  induction pieces generalizing previous with
  | nil => rfl
  | cons piece pieces ih =>
    obtain ⟨hpiece, hpieces⟩ := List.forall_mem_cons.1 h
    have hcopy (b : Aes.Block) : (Access.copy b.toBytes.length piece.length).InRange := hpiece.symm
    rw [chainDecrypt, Checked.block_eq hpiece, Checked.ok_bind]
    dsimp only
    rw [Checked.touch_eq (hcopy _), Checked.ok_bind, ih _ hpieces]
    rfl

def strip (macKey : Bytes) (context : RecordContext) (checkMac : Bool) (data : Bytes) :
    Checked.Attempt Error Bytes := do
  match data.getLast? with
  | none => throw .badRecordMac
  | some p =>
    if p.toNat + 1 + macLength > data.length then throw .badRecordMac
    else
      let start ← Checked.difference (← Checked.difference data.length p.toNat) 1
      let padding ← Checked.slice start data.length data
      if padding.all (· == p) then
        let stop ← Checked.difference start macLength
        if checkMac then
          let expected ← mac macKey context (← Checked.slice 0 stop data)
          let received ← Checked.slice stop start data
          if Bytes.agree expected received then return data.take stop else throw .badRecordMac
        else return data.take stop
      else throw .badRecordMac

/-- The padding is taken off only if as many bytes are there as it says, with the code in front of
them. -/
theorem strip_eq (macKey : Bytes) (context : RecordContext) (checkMac : Bool) (data : Bytes) :
    strip macKey context checkMac data = Checked.outcome
      (match unpad data with
      | none => .error .badRecordMac
      | some signed =>
        let (content, received) := signed.splitAt (signed.length - macLength)
        if checkMac && !Bytes.agree (Protection.mac macKey context content) received then
          .error .badRecordMac
        else .ok content) := by
  unfold strip unpad
  cases hlast : data.getLast? with
  | none => rfl
  | some p =>
    dsimp only
    split
    · rfl
    · rename_i hroom
      have hpad : p.toNat ≤ data.length := by omega
      have hone : 1 ≤ data.length - p.toNat := by omega
      rw [Checked.difference_eq hpad, Checked.liftM_bind, Checked.difference_eq hone,
        Checked.liftM_bind]
      -- The padding begins within the data, and a code fits before it.
      have hmac : macLength ≤ data.length - p.toNat - 1 := by omega
      have hstart : data.length - p.toNat - 1 ≤ data.length := by omega
      generalize data.length - p.toNat - 1 = start at hmac hstart
      have hsigned : (data.take start).length = start := List.length_take_of_le hstart
      have hstop : start - macLength ≤ start := Nat.sub_le _ _
      have hcontent : (data.take start).take (start - macLength) = data.take (start - macLength) := by
        rw [List.take_take, Nat.min_eq_left hstop]
      rw [Checked.slice_length hstart, Checked.liftM_bind]
      split
      · rw [Checked.difference_eq hmac, Checked.liftM_bind]
        dsimp only
        rw [hsigned, List.splitAt_eq, hcontent]
        cases checkMac with
        | true =>
          rw [if_pos rfl, Checked.slice_zero (hstop.trans hstart), Checked.liftM_bind, mac_eq,
            Checked.liftM_bind, Checked.slice_eq hstop hstart, Checked.liftM_bind]
          dsimp only
          generalize Bytes.agree _ _ = agreed
          cases agreed <;> rfl
        | false => rfl
      · rfl

def openCbc (keys : Aes.RoundKeys) (macKey : Bytes) (context : RecordContext) (fragment : Bytes)
    (checkMac : Bool) : Checked.Attempt Error Bytes := do
  if fragment.length < cbcMinimum ∨ fragment.length % Aes.blockLength ≠ 0 then throw .badRecordMac
  else
    let iv ← Checked.block (← Checked.slice 0 Aes.blockLength fragment)
    let body ← Checked.slice Aes.blockLength fragment.length fragment
    if body.length % Aes.blockLength ≠ 0 then throw (.crypto (.notBlockAligned body.length))
    else
      let data ← chainDecrypt keys iv (Bytes.chunks Aes.blockLength body)
      strip macKey context checkMac data

/-- A CBC fragment is cut at its initial vector only if blocks follow it. -/
theorem openCbc_eq (keys : Aes.RoundKeys) (macKey : Bytes) (context : RecordContext)
    (fragment : Bytes) (checkMac : Bool) : openCbc keys macKey context fragment checkMac =
      Checked.outcome ((Protection.cbc keys macKey).unprotect context fragment checkMac) := by
  unfold openCbc unprotect
  dsimp only
  split
  · rfl
  · rename_i h
    have hlong : Aes.blockLength ≤ fragment.length := by
      simp only [cbcMinimum, Aes.blockLength] at h ⊢
      omega
    have hiv : (fragment.take Aes.blockLength).length = Aes.blockLength := List.length_take_of_le hlong
    have hbody : (fragment.drop Aes.blockLength).length % Aes.blockLength = 0 := by
      rw [List.length_drop]
      simp only [Aes.blockLength] at h ⊢
      omega
    have hpieces (piece : Bytes)
        (hpiece : piece ∈ Bytes.chunks Aes.blockLength (fragment.drop Aes.blockLength)) :
        piece.length = Aes.blockLength :=
      Bytes.length_of_mem_chunks (by decide) (Nat.dvd_of_mod_eq_zero hbody) hpiece
    rw [Checked.slice_zero hlong, Checked.liftM_bind, Checked.block_eq hiv, Checked.liftM_bind,
      Checked.slice_length hlong, Checked.liftM_bind, if_neg (not_not.2 hbody),
      chainDecrypt_eq _ _ hpieces, Checked.liftM_bind, strip_eq, List.splitAt_eq]
    rfl

def unprotect (p : Protection) (context : RecordContext) (fragment : Bytes) (checkMac : Bool) :
    Checked.Attempt Error Bytes :=
  match p with
  | .gcm cipher iv => openGcm cipher iv context fragment
  | .cbc keys macKey => openCbc keys macKey context fragment checkMac

/-- Opening stays in range for every fragment that a peer can send. -/
theorem unprotect_eq (p : Protection) (context : RecordContext) (fragment : Bytes)
    (checkMac : Bool) : unprotect p context fragment checkMac =
      Checked.outcome (p.unprotect context fragment checkMac) := by
  cases p with
  | gcm cipher iv => exact openGcm_eq cipher iv context fragment checkMac
  | cbc keys macKey => exact openCbc_eq keys macKey context fragment checkMac

def chainEncrypt (keys : Aes.RoundKeys) : (previous : Aes.Block) → List Bytes → Checked Bytes
  | _, [] => return []
  | previous, piece :: pieces => do
    let c := keys.encrypt (previous.xor (.ofBytes piece))
    Checked.touch (.copy c.toBytes.length piece.length)
    return c.toBytes ++ (← chainEncrypt keys c pieces)

theorem chainEncrypt_eq (keys : Aes.RoundKeys) (previous : Aes.Block) {pieces : List Bytes}
    (h : ∀ piece ∈ pieces, piece.length = Aes.blockLength) :
    chainEncrypt keys previous pieces =
      .ok (Aes.Block.join (keys.chainEncrypt previous (pieces.map .ofBytes))) := by
  induction pieces generalizing previous with
  | nil => rfl
  | cons piece pieces ih =>
    obtain ⟨hpiece, hpieces⟩ := List.forall_mem_cons.1 h
    have hcopy (b : Aes.Block) : (Access.copy b.toBytes.length piece.length).InRange := hpiece.symm
    rw [chainEncrypt, Checked.touch_eq (hcopy _), Checked.ok_bind, ih _ hpieces]
    rfl

def padding (length : Nat) : Checked Bytes := do
  let p ← Checked.difference (← Checked.difference Aes.blockLength 1) (length % Aes.blockLength)
  return List.replicate (p + 1) (UInt8.ofNat p)

theorem padding_eq (length : Nat) : padding length = .ok (Protection.padding length) := by
  have hlast : length % Aes.blockLength ≤ Aes.blockLength - 1 :=
    Nat.le_sub_one_of_lt (Nat.mod_lt _ (by decide))
  rw [padding, Checked.difference_eq (by decide), Checked.ok_bind, Checked.difference_eq hlast]
  rfl

section
variable {ρ : Type} [RandomSource ρ]

def protect (p : Protection) (context : RecordContext) (content : Bytes) (r : ρ) :
    Checked (Bytes × ρ) := do
  let header ← header context content.length
  match p with
  | .gcm cipher iv =>
    let explicit ← Checked.octets explicitNonceLength
      (Bytes.ofNat explicitNonceLength context.sequence.toNat)
    let nonce ← nonce iv explicit
    let output := explicit.toList ++ content
    let body ← Checked.slice explicit.toList.length output.length output
    let (ciphertext, tag) := cipher.encrypt nonce header body
    return (explicit.toList ++ ciphertext ++ tag, r)
  | .cbc keys macKey =>
    let (iv, r) := RandomSource.fill r Aes.blockLength
    let block ← Checked.block iv
    let signed := content ++ (← mac macKey context content)
    let output := iv ++ signed ++ (← padding signed.length)
    let body ← Checked.slice iv.length output.length output
    let ciphertext ← chainEncrypt keys block (Bytes.chunks Aes.blockLength body)
    return (iv ++ ciphertext, r)

/-- Sealing stays in range for every content. -/
theorem protect_eq (p : Protection) (context : RecordContext) (content : Bytes) (r : ρ) :
    protect p context content r = .ok (p.protect context content r) := by
  rw [protect, header_eq, Checked.ok_bind]
  cases p with
  | gcm cipher iv =>
    have hexplicit : (Bytes.ofNat explicitNonceLength context.sequence.toNat).length =
        explicitNonceLength := Bytes.length_ofNat _ _
    have hstart (bs : Bytes) : bs.length ≤ (bs ++ content).length := by
      rw [List.length_append]
      omega
    dsimp only
    rw [Checked.octets_eq hexplicit, Checked.ok_bind, nonce_eq, Checked.ok_bind,
      Checked.slice_length (hstart _), Checked.ok_bind, List.drop_left, Octets.toList_ofBytes hexplicit,
      Protection.protect, Checked.pure_eq]
  | cbc keys macKey =>
    have hiv := RandomSource.length_fill r Aes.blockLength
    have hstart (bs signed padding : Bytes) : bs.length ≤ (bs ++ signed ++ padding).length := by
      rw [List.length_append, List.length_append]
      omega
    have hpieces (signed : Bytes) :
        ∀ piece ∈ Bytes.chunks Aes.blockLength (signed ++ Protection.padding signed.length),
          piece.length = Aes.blockLength :=
      fun _ => Bytes.length_of_mem_chunks (by decide) (dvd_length_append_padding signed)
    dsimp only
    rw [Checked.block_eq hiv, Checked.ok_bind, mac_eq, Checked.ok_bind, padding_eq, Checked.ok_bind,
      Checked.slice_length (hstart _ _ _), Checked.ok_bind, List.append_assoc, List.drop_left,
      chainEncrypt_eq _ _ (hpieces _), Protection.protect]
    rfl

end

end Protection.Checked
end TlsClient
