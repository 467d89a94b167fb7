import TlsClient.Text
import TlsClient.Wire.Parser

namespace TlsClient

structure CertificateChain where
  certificates : List Bytes
deriving DecidableEq

namespace CertificateChain

def places : Nat := 16

def leaf? (c : CertificateChain) : Option Bytes :=
  c.certificates.head?

def parseAll : (places : Nat) → Wire.Parser (List Bytes)
  | _, [] => .ok ([], [])
  | 0, input =>
    match Wire.Parser.block 3 input with
    -- One certificate too many is an error; it is not left unread.
    | .ok _ => .error (.fatal .tooLarge)
    | .error e => .error e
  | places + 1, input =>
    match Wire.Parser.block 3 input with
    | .ok (certificate, rest) =>
      match parseAll places rest with
      | .ok (certificates, rest) => .ok (certificate :: certificates, rest)
      | .error e => .error e
    | .error e => .error e

def parse : Wire.Parser CertificateChain := do
  let list ← Wire.Parser.block 3
  match parseAll places list with
  | .ok (certificates, _) => return ⟨certificates⟩
  | .error e => throw e

def toBytes (c : CertificateChain) : Bytes :=
  let bs := c.certificates.flatMap fun cert => Bytes.ofNat 3 cert.length ++ cert
  Bytes.ofNat 3 bs.length ++ bs

def certificateText (cert : Bytes) : String :=
  Text.tagged "Asn1Cert" (Text.list (cert.map fun b => toString b.toNat))

end CertificateChain
end TlsClient
