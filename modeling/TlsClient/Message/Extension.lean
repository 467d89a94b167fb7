import TlsClient.Wire.CodePoint
import TlsClient.Wire.Repetition

namespace TlsClient

structure Extension where
  kind : ExtensionType
  data : Bytes
deriving DecidableEq

namespace Extension

instance : Inhabited Extension := ⟨default, []⟩

def parse : Wire.Parser Extension := do
  let kind ← ExtensionType.parse
  let data ← Wire.Parser.block 2
  return ⟨kind, data⟩

def toBytes (e : Extension) : Bytes :=
  e.kind.toBytes ++ Bytes.ofNat 2 e.data.length ++ e.data

def parseList (places : Nat) : Wire.Parser (List Extension) := do
  Wire.Parser.within (← Wire.Parser.block 2) (Wire.Parser.many0 parse places)

def listToBytes (es : List Extension) : Bytes :=
  let bs := es.flatMap toBytes
  Bytes.ofNat 2 bs.length ++ bs

def text (e : Extension) : String :=
  Text.record "Extension" [("extension_type", e.kind.text),
    ("extension_data", Text.list (e.data.map fun b => toString b.toNat))]

end Extension

structure ServerName where
  host : String
deriving DecidableEq

namespace ServerName

def hostBytes (n : ServerName) : Bytes :=
  n.host.toUTF8.data.toList

def parse : Wire.Parser ServerName := do
  -- The length of the list around the name is not looked at.
  let _listLength ← Wire.Parser.number 2
  let nameType ← Wire.Parser.byte
  if nameType ≠ 0 then Wire.Parser.fatal .tag else
    let name ← Wire.Parser.block 2
    match String.fromUTF8? ⟨name.toArray⟩ with
    | some host => return ⟨host⟩
    | none => Wire.Parser.fatal .char

def toBytes (n : ServerName) : Bytes :=
  let name := n.hostBytes
  Bytes.ofNat 2 (name.length + 3) ++ [0] ++ Bytes.ofNat 2 name.length ++ name

end ServerName

structure SignatureAlgorithms where
  schemes : List SignatureScheme
deriving DecidableEq

namespace SignatureAlgorithms

def places : Nat := 8

def rsaSha256 : SignatureAlgorithms := ⟨[.rsaSha256]⟩

def parse : Wire.Parser SignatureAlgorithms := do
  let list ← Wire.Parser.block 2
  match Wire.Parser.many0 SignatureScheme.parse places list with
  -- An odd byte at the end of the list is passed over.
  | .ok (schemes, _) => return ⟨schemes⟩
  | .error e => throw e

def toBytes (a : SignatureAlgorithms) : Bytes :=
  Bytes.ofNat 2 (2 * a.schemes.length) ++ a.schemes.flatMap SignatureScheme.toBytes

end SignatureAlgorithms
end TlsClient
