import TlsClient.Der.Value
import TlsClient.Rsa.PublicKey

/-!
The RSA public key of an X.509 certificate. Nothing else in the certificate is looked at: the key of
whatever certificate comes first is trusted as it is.
-/

namespace TlsClient.Der

def rsaEncryption : Bytes :=
  [0x2A, 0x86, 0x48, 0x86, 0xF7, 0x0D, 0x01, 0x01, 0x01]

namespace Value

def firstChild? (v : Value) : Option Value :=
  match v.childItems with
  | .ok c :: _ => some c
  | _ => none

/-- Whether a value is the key information of an RSA key: a sequence that starts with a sequence
that starts with the object identifier of RSA encryption. -/
def isRsaKeyInfo (v : Value) : Bool :=
  v.tag = .sequence &&
    match v.firstChild? with
    | none => false
    | some algorithm =>
      algorithm.tag = .sequence &&
        match algorithm.firstChild? with
        | none => false
        | some identifier =>
          identifier.tag = .objectIdentifier && identifier.content = rsaEncryption

/-- The key in the key information: its second and last element is a bit string that holds a
sequence of the modulus and the exponent. -/
def rsaKey (info : Value) : Except Error PublicKey := do
  match ← info.children with
  | [_, key] =>
    let sequence ← parseExact (← key.bitString)
    sequence.expect .sequence
    match ← sequence.children with
    | [modulus, exponent] =>
      PublicKey.ofBytes (← modulus.unsignedInteger) (← exponent.unsignedInteger)
    | _ => .error (.certificate .keyShape)
  | _ => .error (.certificate .keyInfoShape)

end Value

/-- The RSA key of a certificate: that of the first element of its first element which is the key
information of an RSA key. -/
def certificateKey (certificate : Bytes) : Except Error PublicKey := do
  let outer ← Value.parseExact certificate
  outer.expect .sequence
  match outer.childItems with
  | [] => .error (.certificate .empty)
  | .error e :: _ => .error e
  | .ok body :: _ =>
    body.expect .sequence
    -- Its place among the elements depends on which optional ones are there.
    match (← body.children).find? (·.isRsaKeyInfo) with
    | none => .error (.certificate .noRsaKey)
    | some info => info.rsaKey

end TlsClient.Der
