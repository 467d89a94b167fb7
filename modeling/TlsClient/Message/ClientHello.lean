import TlsClient.Message.Extension
import TlsClient.Message.HelloRandom
import TlsClient.Message.SessionId

namespace TlsClient

structure ClientHello where
  version : ProtocolVersion
  random : HelloRandom
  sessionId : SessionId
  suites : List CipherSuite
  compression : List CompressionMethod
  extensions : List Extension
deriving DecidableEq

namespace ClientHello

def suitePlaces : Nat := 32

def compressionPlaces : Nat := 4

def extensionPlaces : Nat := 16

def extensionsFor (host : String) : List Extension :=
  let name : List Extension :=
    -- An empty name stands for a server whose name is not known.
    if host.isEmpty then [] else [⟨.serverName, (ServerName.mk host).toBytes⟩]
  name ++ [⟨.signatureAlgorithms, SignatureAlgorithms.rsaSha256.toBytes⟩]

def withExtensions (h : ClientHello) (host : String) : ClientHello :=
  { h with extensions := h.extensions ++ extensionsFor host }

def parse : Wire.Parser ClientHello := do
  let version ← ProtocolVersion.parse
  let random ← HelloRandom.parse
  let sessionId ← SessionId.parse
  let suites ← Wire.Parser.within (← Wire.Parser.block 2)
    (Wire.Parser.many1 CipherSuite.parse suitePlaces)
  let compression ← Wire.Parser.within (← Wire.Parser.block 1)
    (Wire.Parser.many1 CompressionMethod.parse compressionPlaces)
  let extensions ← if (← get).isEmpty then pure [] else Extension.parseList extensionPlaces
  return { version, random, sessionId, suites, compression, extensions }

def toBytes (h : ClientHello) : Bytes :=
  h.version.toBytes ++ h.random.toBytes ++ h.sessionId.toBytes
    ++ Bytes.ofNat 2 (2 * h.suites.length) ++ h.suites.flatMap CipherSuite.toBytes
    ++ [UInt8.ofNat h.compression.length] ++ h.compression.map CompressionMethod.code
    ++ if h.extensions.isEmpty then [] else Extension.listToBytes h.extensions

def serverName (h : ClientHello) : Option String :=
  match h.extensions.find? (·.kind = .serverName) with
  | none => none
  | some e =>
    match ServerName.parse e.data with
    | .ok (name, _) => some name.host
    | .error _ => none

end ClientHello
end TlsClient
