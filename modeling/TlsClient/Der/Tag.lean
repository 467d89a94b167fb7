import TlsClient.Text

namespace TlsClient.Der

inductive Tag where
  | boolean
  | integer
  | bitString
  | octetString
  | null
  | objectIdentifier
  | utf8String
  | printableString
  | utcTime
  | generalizedTime
  | sequence
  | set
  | contextSpecific (number : UInt8)
  | unknown (code : UInt8)
deriving DecidableEq

namespace Tag

def ofCode (v : UInt8) : Tag :=
  match v with
  | 0x01 => .boolean
  | 0x02 => .integer
  | 0x03 => .bitString
  | 0x04 => .octetString
  | 0x05 => .null
  | 0x06 => .objectIdentifier
  | 0x0C => .utf8String
  | 0x13 => .printableString
  | 0x17 => .utcTime
  | 0x18 => .generalizedTime
  | 0x30 => .sequence
  | 0x31 => .set
  | v => if v &&& 0xC0 = 0x80 then .contextSpecific (v &&& 0x1F) else .unknown v

def text : Tag → String
  | .boolean => "Boolean"
  | .integer => "Integer"
  | .bitString => "BitString"
  | .octetString => "OctetString"
  | .null => "Null"
  | .objectIdentifier => "ObjectIdentifier"
  | .utf8String => "Utf8String"
  | .printableString => "PrintableString"
  | .utcTime => "UtcTime"
  | .generalizedTime => "GeneralizedTime"
  | .sequence => "Sequence"
  | .set => "Set"
  | .contextSpecific number => Text.tagged "ContextSpecific" (toString number.toNat)
  | .unknown code => Text.tagged "Unknown" (toString code.toNat)

instance : Inhabited Tag := ⟨.unknown 0⟩

def all : List Tag :=
  [.boolean, .integer, .bitString, .octetString, .null, .objectIdentifier, .utf8String,
    .printableString, .utcTime, .generalizedTime, .sequence, .set]
    ++ (List.range 256).map (.contextSpecific <| UInt8.ofNat ·)
    ++ (List.range 256).map (.unknown <| UInt8.ofNat ·)

def ofText? (s : String) : Option Tag :=
  all.find? (·.text == s)

end Tag
end TlsClient.Der
