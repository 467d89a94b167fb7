import TlsClient.Gcm.Cipher
import TlsClient.Hmac
import TlsClient.Random.Source
import TlsClient.Record.KeyMaterial

/-!
Record protection for the two cipher suites. CBC authenticates, pads and encrypts under a random
initial vector (RFC 5246, section 6.2.3.2); GCM uses the sequence number as the explicit part of its
nonce (RFC 5288). Every way in which a CBC fragment can be wrong gives one and the same error.
-/

namespace TlsClient

structure RecordContext where
  sequence : UInt64
  contentType : ContentType
  version : ProtocolVersion
deriving DecidableEq

/-- The authenticated header of a record: sequence number, type, version and the low 16 bits of the
content's length. -/
def RecordContext.header (c : RecordContext) (length : Nat) : Bytes :=
  Bytes.ofNat 8 c.sequence.toNat ++ [c.contentType.code] ++ Bytes.ofNat 2 c.version.code.toNat
    ++ Bytes.ofNat 2 length

inductive Protection where
  | cbc (keys : Aes.RoundKeys) (macKey : Bytes)
  | gcm (cipher : Gcm) (iv : Octets 4)
deriving DecidableEq

namespace Protection

def explicitNonceLength : Nat := 8

def gcmOverhead : Nat := explicitNonceLength + Gcm.tagLength

def macLength : Nat := Sha256.digestLength

def cbcMinimum : Nat := Aes.blockLength + 3 * Aes.blockLength

def ofKeys (suite : CipherSuite) (keys : KeyMaterial) (side : Side) : Protection :=
  let writer := keys.writer side
  if suite.aead then .gcm (Gcm.ofKey writer.key) (Octets.ofBytes 4 writer.iv)
  else .cbc (Aes.RoundKeys.ofKey writer.key) writer.macKey

def nonce (iv : Octets 4) (explicit : Bytes) : Octets Gcm.nonceLength :=
  Octets.ofBytes _ (iv.toList ++ explicit)

def mac (macKey : Bytes) (context : RecordContext) (content : Bytes) : Bytes :=
  (((Hmac.ofKey macKey).update (context.header content.length)).update content).finish

/-- The padding that brings `length` bytes to whole blocks: between one and sixteen bytes, each of
which is the number of the others. -/
def padding (length : Nat) : Bytes :=
  let p := Aes.blockLength - 1 - length % Aes.blockLength
  List.replicate (p + 1) (UInt8.ofNat p)

def unpad (data : Bytes) : Option Bytes :=
  match data.getLast? with
  | none => none
  | some p =>
    -- The last byte is the number of padding bytes before it.
    if p.toNat + 1 + macLength > data.length then none else
      let start := data.length - p.toNat - 1
      if (data.drop start).all (· == p) then some (data.take start) else none

section
variable {ρ : Type} [RandomSource ρ]

def protect (p : Protection) (context : RecordContext) (content : Bytes) (r : ρ) : Bytes × ρ :=
  match p with
  | .gcm cipher iv =>
    let explicit := Bytes.ofNat explicitNonceLength context.sequence.toNat
    -- The header is the one of the plaintext, whose length is the ciphertext's.
    let (ciphertext, tag) :=
      cipher.encrypt (nonce iv explicit) (context.header content.length) content
    (explicit ++ ciphertext ++ tag, r)
  | .cbc keys macKey =>
    let (iv, r) := RandomSource.fill r Aes.blockLength
    -- The MAC is under the encryption, and so is the padding after it.
    let signed := content ++ mac macKey context content
    let padded := signed ++ padding signed.length
    (iv ++ Aes.Block.join (keys.chainEncrypt (.ofBytes iv) (Aes.Block.split padded)), r)

def inPlace {α : Type} (start : Nat) (f : Bytes → α × Bytes) (buffer : Bytes) : α × Bytes :=
  let (a, rest) := f (buffer.drop start)
  (a, buffer.take start ++ rest)

/-- Appends the fragment that carries a content to a buffer and encrypts it there. The second part is
the buffer afterwards. -/
def sealInto (p : Protection) (context : RecordContext) (content buffer : Bytes) (r : ρ) :
    Except CryptoFault Unit × Bytes × ρ :=
  match p with
  | .gcm cipher iv =>
    let explicit := Bytes.ofNat explicitNonceLength context.sequence.toNat
    let buffer := buffer ++ explicit
    let encrypt (bs : Bytes) :=
      (cipher.encrypt (nonce iv explicit) (context.header content.length) bs).swap
    let (tag, buffer) := inPlace buffer.length encrypt (buffer ++ content)
    (.ok (), buffer ++ tag, r)
  | .cbc keys macKey =>
    let (iv, r) := RandomSource.fill r Aes.blockLength
    let buffer := buffer ++ iv
    let signed := content ++ mac macKey context content
    -- The cipher refuses what is not whole blocks; the padding is there for it.
    let (result, buffer) := inPlace buffer.length (keys.cbcEncrypt (.ofBytes iv))
      (buffer ++ signed ++ padding signed.length)
    (result, buffer, r)

end

/-- The content of a fragment, if it is authentic. For CBC the MAC is only checked when asked for;
the padding and the lengths always are. -/
def unprotect (p : Protection) (context : RecordContext) (fragment : Bytes) (checkMac : Bool) :
    Except Error Bytes :=
  match p with
  | .gcm cipher iv =>
    if fragment.length < gcmOverhead then .error .badRecordMac else
      let (explicit, rest) := fragment.splitAt explicitNonceLength
      let (ciphertext, tag) := rest.splitAt (rest.length - Gcm.tagLength)
      let header := context.header ciphertext.length
      match cipher.decrypt (nonce iv explicit) header ciphertext tag with
      | (.ok (), content) => .ok content
      | (.error e, _) => .error e
  | .cbc keys macKey =>
    if fragment.length < cbcMinimum ∨ fragment.length % Aes.blockLength ≠ 0 then
      .error .badRecordMac
    else
      let (iv, rest) := fragment.splitAt Aes.blockLength
      -- The first block is the initial vector and no part of the data.
      let data := Aes.Block.join (keys.chainDecrypt (.ofBytes iv) (Aes.Block.split rest))
      match unpad data with
      | none => .error .badRecordMac
      | some signed =>
        let (content, received) := signed.splitAt (signed.length - macLength)
        if checkMac && !Bytes.agree (mac macKey context content) received then
          .error .badRecordMac
        else .ok content

def overhead (p : Protection) (length : Nat) : Nat :=
  match p with
  | .gcm _ _ => gcmOverhead
  | .cbc _ _ =>
    let padded := ((length + macLength) / Aes.blockLength + 1) * Aes.blockLength
    Aes.blockLength + padded - length

def text : Protection → String
  | .cbc _ _ => "RecordCipher::Cbc"
  | .gcm _ _ => "RecordCipher::Gcm"

end Protection
end TlsClient
