import TlsClient.Message.CertificateChain
import TlsClient.Message.ClientHello
import TlsClient.Message.ServerHello
import TlsClient.Registry.Handshake

namespace TlsClient

structure KeyExchange where
  encrypted : Bytes
deriving DecidableEq

namespace KeyExchange

def parse : Wire.Parser KeyExchange :=
  KeyExchange.mk <$> Wire.Parser.block 2

def toBytes (k : KeyExchange) : Bytes :=
  Bytes.ofNat 2 k.encrypted.length ++ k.encrypted

end KeyExchange

structure Finished where
  verifyData : Bytes
deriving DecidableEq

namespace Finished

def parse (suite : CipherSuite) : Wire.Parser Finished :=
  Finished.mk <$> Wire.Parser.take suite.verifyDataLength

def verify (f : Finished) (expected : Bytes) : Bool :=
  Bytes.agree f.verifyData expected

end Finished

inductive HandshakeBody where
  | helloRequest
  | clientHello (hello : ClientHello)
  | serverHello (hello : ServerHello)
  | certificate (chain : CertificateChain)
  | serverKeyExchange (data : Bytes)
  | certificateRequest (data : Bytes)
  | serverHelloDone
  | clientKeyExchange (exchange : KeyExchange)
  | finished (message : Finished)
  | unknown (code : UInt8) (data : Bytes)
deriving DecidableEq

namespace HandshakeBody

instance : Inhabited HandshakeBody := ⟨.unknown 0 []⟩

/-- Reads a body of the given type. Verify data can only be read once a suite is negotiated. -/
def parse (kind : MessageType) (suite : Option CipherSuite) : Wire.Parser HandshakeBody :=
  match kind with
  | .helloRequest => pure .helloRequest
  | .clientHello => .clientHello <$> ClientHello.parse
  | .serverHello => .serverHello <$> ServerHello.parse
  | .certificate => .certificate <$> CertificateChain.parse
  | .serverKeyExchange => .serverKeyExchange <$> Wire.Parser.rest
  | .certificateRequest => .certificateRequest <$> Wire.Parser.rest
  | .serverHelloDone => pure .serverHelloDone
  | .clientKeyExchange => .clientKeyExchange <$> KeyExchange.parse
  | .finished =>
    match suite with
    -- How long the verify data is depends on the suite.
    | none => Wire.Parser.fatal .fail
    | some suite => .finished <$> Finished.parse suite
  | .newSessionTicket | .certificateVerify | .unknown _ =>
    .unknown kind.code <$> Wire.Parser.rest

def name : HandshakeBody → String
  | .helloRequest => "HelloRequest"
  | .clientHello _ => "ClientHello"
  | .serverHello _ => "ServerHello"
  | .certificate _ => "Certificate"
  | .serverKeyExchange _ => "ServerKeyExchange"
  | .certificateRequest _ => "CertificateRequest"
  | .serverHelloDone => "ServerHelloDone"
  | .clientKeyExchange _ => "ClientKeyExchange"
  | .finished _ => "Finished"
  | .unknown _ _ => "Unknown"

def toBytes : HandshakeBody → Bytes
  | .helloRequest | .serverHelloDone => []
  | .clientHello hello => hello.toBytes
  | .serverHello hello => hello.toBytes
  | .certificate chain => chain.toBytes
  | .serverKeyExchange data | .certificateRequest data => data
  | .clientKeyExchange exchange => exchange.toBytes
  | .finished message => message.verifyData
  | .unknown _ data => data

end HandshakeBody

structure HandshakeHeader where
  kind : MessageType
  length : Nat
deriving DecidableEq

namespace HandshakeHeader

instance : Inhabited HandshakeHeader := ⟨default, 0⟩

def byteLength : Nat := 4

def parse : Wire.Parser HandshakeHeader := do
  let kind ← MessageType.parse
  let length ← Wire.Parser.number 3
  return ⟨kind, length⟩

def text (h : HandshakeHeader) : String :=
  Text.record "Header" [("msg_type", h.kind.text), ("length", toString h.length)]

end HandshakeHeader

structure Handshake where
  header : HandshakeHeader
  body : HandshakeBody
deriving DecidableEq

namespace Handshake

def completeLength (bs : Bytes) : Option Nat :=
  match HandshakeHeader.parse bs with
  | .error _ => none
  | .ok (header, _) =>
    let total := HandshakeHeader.byteLength + header.length
    if bs.length ≥ total then some total else none

def parse (suite : Option CipherSuite) : Wire.Parser Handshake := do
  let header ← HandshakeHeader.parse
  let bytes ← Wire.Parser.take header.length
  -- A body that is too short for its length is refused, and so is one that is too long.
  let body ← Wire.Parser.within bytes (HandshakeBody.parse header.kind suite)
  return ⟨header, body⟩

def appendTo (output : Bytes) (m : Handshake) : Bytes :=
  let start := output.length
  -- How long the body is shows when it is written; until then its length is zero.
  let written := output ++ [m.header.kind.code] ++ [0, 0, 0] ++ m.body.toBytes
  let length := written.length - start - HandshakeHeader.byteLength
  written.take (start + 1) ++ Bytes.ofNat 3 length
    ++ written.drop (start + HandshakeHeader.byteLength)

def toBytes (m : Handshake) : Bytes :=
  m.appendTo []

end Handshake
end TlsClient
