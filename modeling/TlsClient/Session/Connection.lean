import TlsClient.Message.HelloRandom
import TlsClient.Message.SessionId
import TlsClient.Record.Protection
import TlsClient.Record.Reader
import TlsClient.Rsa.PublicKey
import TlsClient.Sha256.Stream

namespace TlsClient

open Network

structure Connection where
  link : Option LinkId
  state : State
  suite : Option CipherSuite
  clientRandom : HelloRandom
  serverRandom : HelloRandom
  sessionId : SessionId
  /-- The key in the server's own certificate. -/
  serverKey : Option PublicKey
  masterSecret : Bytes
  /-- The hash over all handshake messages so far. -/
  transcript : Sha256
  /-- How many records were sent under the write keys. -/
  clientSequence : UInt64
  /-- How many records were received under the read keys. -/
  serverSequence : UInt64
  writeProtection : Option Protection
  /-- What takes effect once the server changes its cipher. -/
  pendingReadProtection : Option Protection
  readProtection : Option Protection
  reader : RecordReader
  /-- Handshake bytes that are no complete message yet. -/
  handshakeBuffer : Bytes
  /-- Application data that was not handed out yet. -/
  pending : Bytes
deriving DecidableEq

namespace Connection

def noSecret : Bytes := List.replicate 48 0

def fresh : Connection where
  link := none
  state := .init
  suite := none
  clientRandom := default
  serverRandom := default
  sessionId := .empty
  serverKey := none
  masterSecret := noSecret
  transcript := .empty
  clientSequence := 0
  serverSequence := 0
  writeProtection := none
  pendingReadProtection := none
  readProtection := none
  reader := .empty
  handshakeBuffer := []
  pending := []

def wiped (c : Connection) : Connection :=
  { c with
    masterSecret := noSecret
    writeProtection := none
    pendingReadProtection := none
    readProtection := none
    -- Data that was not handed out is as secret as the keys.
    pending := [] }

/-- Without what was negotiated, counted and not used up either. The link and the state stay. -/
def reset (c : Connection) : Connection :=
  { c.wiped with
    suite := none
    clientRandom := default
    serverRandom := default
    sessionId := .empty
    serverKey := none
    transcript := .empty
    clientSequence := 0
    serverSequence := 0
    reader := c.reader.clear
    handshakeBuffer := [] }

def failed (c : Connection) : Connection :=
  { c.wiped with state := .error }

def text (c : Connection) : String :=
  Text.record "TlsConnection" [
    ("state", c.state.text),
    ("id", Text.optional (c.link.map LinkId.diagnostic)),
    ("cipher_suite", Text.optional (c.suite.map CipherSuite.text)),
    ("client_seq", toString c.clientSequence.toNat),
    ("server_seq", toString c.serverSequence.toNat)]

end Connection
end TlsClient
