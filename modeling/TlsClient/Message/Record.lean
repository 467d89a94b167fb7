import TlsClient.Wire.CodePoint

namespace TlsClient

structure RecordHeader where
  contentType : ContentType
  version : ProtocolVersion
  length : Nat
deriving DecidableEq

namespace RecordHeader

def byteLength : Nat := 5

def parse : Wire.Parser RecordHeader := do
  let contentType ← ContentType.parse
  let version ← ProtocolVersion.parse
  let length ← Wire.Parser.number 2
  return { contentType, version, length }

end RecordHeader

structure Record where
  contentType : ContentType
  version : ProtocolVersion
  fragment : Bytes
deriving DecidableEq

namespace Record

def maxPlaintext : Nat := 16384

def maxCiphertext : Nat := maxPlaintext + 2048

def parse : Wire.Parser Record := do
  let header ← RecordHeader.parse
  if header.length > maxCiphertext then Wire.Parser.fatal .tooLarge else
    let fragment ← Wire.Parser.take header.length
    return ⟨header.contentType, header.version, fragment⟩

def toBytes (r : Record) : Bytes :=
  [r.contentType.code] ++ r.version.toBytes ++ Bytes.ofNat 2 r.fragment.length ++ r.fragment

end Record
end TlsClient
