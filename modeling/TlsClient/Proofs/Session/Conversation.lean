import TlsClient.Proofs.Record.Sealing
import TlsClient.Proofs.Session.Ending
import TlsClient.Proofs.Session.Flight

namespace TlsClient.Session

open Network

variable {τ ρ : Type}

structure Conversation (ρ : Type) where
  clientHello : Bytes
  /-- The records that carried the server's answer. -/
  flight : List Record
  answer : Answer
  serverHello : ServerHello
  serverKey : PublicKey
  exchange : Bytes
  keys : KeyMaterial
  /-- The verify data in the client's Finished message. -/
  verifyData : Bytes
  /-- The random numbers that the client's Finished message was sealed with. -/
  random : ρ
  /-- The record that changed the server's cipher. -/
  change : Record

/-- The server's answer is made of framed messages, takes up an offer of the configuration and gives
a certificate with a key. -/
structure Agrees (config : Config) (answer : Answer) (serverHello : ServerHello) (key : PublicKey) :
    Prop where
  framed : ∀ m ∈ answer.messages, Handshake.IsFramed m
  isHello : IsHello none answer.hello serverHello
  version : serverHello.version = .tls12
  suite : serverHello.suite ∈ config.suites
  compression : serverHello.compression = .null
  isCertificate : IsCertificate (some serverHello.suite) answer.certificate key

def opening (clientHello exchange : Bytes) : List Record :=
  [inClear .handshake clientHello, inClear .handshake exchange, inClear .changeCipherSpec [1]]

namespace Conversation

variable (c : Conversation ρ)

def protection (side : Side) : Protection :=
  Protection.ofKeys c.serverHello.suite c.keys side

def finished : Outgoing ρ :=
  ⟨.handshake, finishedMessage c.verifyData, c.random⟩

def agreement : Bytes :=
  c.clientHello ++ c.answer.transcript ++ c.exchange

def transcript : Bytes :=
  c.agreement ++ finishedMessage c.verifyData

end Conversation

variable [RandomSource ρ]

/-- The handshake that led from `s` to `t` was the conversation `c`: what was sent and received, what
was agreed on, and how the session is left. -/
structure Handshaken (host : String) (s t : Session (Recorded τ) ρ) (c : Conversation ρ) : Prop where
  config : t.config = s.config
  state : t.connection.state = .established
  link : t.connection.link.isSome = true
  pending : t.connection.pending = []
  clientHello : c.clientHello = helloMessage s.config t.connection.clientRandom host
  exchange : ∃ encrypted, c.exchange = exchangeMessage encrypted
  sends : Sends s t (opening c.clientHello c.exchange ++
    (c.protection .client).sealAll [c.finished])
  short : ∀ r ∈ opening c.clientHello c.exchange, r.fragment.length ≤ Record.maxPlaintext
  shortFinished : c.finished.content.length ≤ Record.maxPlaintext
  clientSequence : t.connection.clientSequence = 1
  writeProtection : t.connection.writeProtection = some (c.protection .client)
  agrees : Agrees s.config c.answer c.serverHello c.serverKey
  serverKey : t.connection.serverKey = some c.serverKey
  keyed : Keyed t.connection c.serverHello.suite c.keys
  verifyData : Prf.verifyData t.connection.masterSecret "client finished"
    (Sha256.hash c.agreement) = .ok c.verifyData
  flight : ∀ r ∈ c.flight, r.Acceptable ∧ r.contentType = .handshake
  fragments : c.flight.flatMap Record.fragment = c.answer.messages.flatten
  change : ChangesCipher c.change
  ended : ∃ u : Session (Recorded τ) ρ, Ended u t ∧ u.config = s.config ∧
    u.transport.received = s.transport.received ++ wire c.flight ++ c.change.toBytes ++
      u.connection.reader.buffer ∧
    u.connection.readProtection = some (c.protection .server) ∧
    t.connection.readProtection = some (c.protection .server) ∧
    u.connection.serverSequence = 0 ∧
    u.connection.masterSecret = t.connection.masterSecret ∧
    u.connection.transcript.finish = Sha256.hash c.transcript

/-- What a handshake that stops has sent: a beginning of the records in the clear, or all of them and
one Finished message under keys that were derived. -/
inductive Stopped (s t : Session (Recorded τ) ρ) (clientHello exchange : Bytes) : Prop
  | clear (records : List Record) (hbegins : records <+: opening clientHello exchange)
    (hshort : ∀ r ∈ records, r.fragment.length ≤ Record.maxPlaintext) (h : Sends s t records)
  | sealed (hshort : ∀ r ∈ opening clientHello exchange, r.fragment.length ≤ Record.maxPlaintext)
    (suite : CipherSuite) (keys : KeyMaterial) (m : Outgoing ρ) (hsuite : suite ∈ s.config.suites)
    (htype : m.contentType = .handshake) (hm : m.content.length ≤ Record.maxPlaintext)
    (h : Sends s t (opening clientHello exchange ++
      (Protection.ofKeys suite keys .client).sealAll [m]))

/-- How far a stopped handshake got is told by what was sent alone. -/
theorem Stopped.of_same {s t u : Session (Recorded τ) ρ} {clientHello exchange : Bytes}
    (h : Stopped s t clientHello exchange) (hu : u.transport.sent = t.transport.sent) :
    Stopped s u clientHello exchange := by
  cases h with
  | clear records hbegins hshort h => exact .clear records hbegins hshort (hu.trans h)
  | sealed hshort suite keys m hsuite htype hm h =>
    exact .sealed hshort suite keys m hsuite htype hm (hu.trans h)

end TlsClient.Session
