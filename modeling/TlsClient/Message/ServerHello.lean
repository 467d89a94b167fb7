import TlsClient.Message.Extension
import TlsClient.Message.HelloRandom
import TlsClient.Message.SessionId

namespace TlsClient

structure ServerHello where
  version : ProtocolVersion
  random : HelloRandom
  sessionId : SessionId
  suite : CipherSuite
  compression : CompressionMethod
  extensions : Option (List Extension)
deriving DecidableEq

namespace ServerHello

def extensionPlaces : Nat := 32

def parse : Wire.Parser ServerHello := do
  let version ← ProtocolVersion.parse
  let random ← HelloRandom.parse
  let sessionId ← SessionId.parse
  let suite ← CipherSuite.parse
  let compression ← CompressionMethod.parse
  let extensions ←
    if (← get).isEmpty then pure none else some <$> Extension.parseList extensionPlaces
  return { version, random, sessionId, suite, compression, extensions }

def toBytes (h : ServerHello) : Bytes :=
  h.version.toBytes ++ h.random.toBytes ++ h.sessionId.toBytes ++ h.suite.toBytes
    ++ [h.compression.code]
    ++ match h.extensions with
      | none => []
      | some es => Extension.listToBytes es

end ServerHello
end TlsClient
