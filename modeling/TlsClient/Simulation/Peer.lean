import TlsClient.Error
import TlsClient.Message.Record
import TlsClient.Prf
import TlsClient.Random.Scripted
import TlsClient.Record.Protection
import TlsClient.Simulation.Script

namespace TlsClient.Simulation

open Network

inductive Delivery where
  | data (bs : Bytes)
  | idle
  | fault (error : TransportError)
deriving DecidableEq

structure KeyExchangeReport where
  messageLength : Nat
  isPadded : Bool
  paddingEnd : Option Nat
  preMaster : Bytes
  body : Bytes
deriving DecidableEq

inductive Observation where
  | connect (peer : Endpoint)
  | close (id : LinkId)
  | unheard (accepted length : Nat)
  | badRecord (contentType : ContentType)
  | record (header : RecordHeader)
  | changeCipherSpec (content : Bytes)
  | alert (content : Bytes)
  | clientHello (message : Bytes)
  | keyExchange (report : KeyExchangeReport)
  | finished (isExpected : Bool)
  | handshake (kind : MessageType)
  | data (content : Bytes)
  | initialVector (iv : Bytes)
deriving DecidableEq

structure DialogueKeys where
  client : Protection
  server : Protection
deriving DecidableEq

structure Dialogue where
  /-- Bytes that are no complete record yet. -/
  inbox : Bytes
  /-- Whether bytes were lost, so that nothing more is heard. -/
  isDeaf : Bool
  transcript : Sha256
  clientRandom : Bytes
  masterSecret : Bytes
  keys : Option DialogueKeys
  /-- Whether the client has changed its cipher. -/
  isOpening : Bool
  readSequence : UInt64
  writeSequence : UInt64
deriving DecidableEq

def Dialogue.fresh : Dialogue where
  inbox := []
  isDeaf := false
  transcript := .empty
  clientRandom := []
  masterSecret := []
  keys := none
  isOpening := false
  readSequence := 0
  writeSequence := 0

structure Peer where
  settings : Settings
  /-- Where initial vectors come from. -/
  random : ScriptedSource
  nextLink : UInt32
  queue : List Delivery
  dialogue : Dialogue
  polls : Nat
  recvs : Nat
  log : List Observation

namespace Peer

def start (settings : Settings) (random : ScriptedSource) (firstLink : UInt32) : Peer where
  settings := settings
  random := random
  nextLink := firstLink
  queue := []
  dialogue := .fresh
  polls := 0
  recvs := 0
  log := []

def see (p : Peer) (o : Observation) : Peer :=
  { p with log := p.log ++ [o] }

def deliver (p : Peer) (ds : List Delivery) : Peer :=
  { p with queue := p.queue ++ ds }

def recordBytes (contentType : ContentType) (version : ProtocolVersion)
    (fragment : Bytes) : Bytes :=
  Record.toBytes ⟨contentType, version, fragment⟩

def deliverSealed (p : Peer) (contentType : ContentType) (content : Bytes) (s : Sealing) : Peer :=
  let sequence := s.sequence.getD p.dialogue.writeSequence
  let (fragment, random) :=
    match p.dialogue.keys with
    | none => (content, p.random)
    | some keys => keys.server.protect ⟨sequence, contentType, s.version⟩ content p.random
  let bytes := recordBytes (s.outer.getD contentType) s.version (s.damage.apply fragment)
  -- The server's own number moves on even if the record was sealed with another one.
  { p.deliver [.data bytes] with
    random := random
    dialogue.writeSequence := p.dialogue.writeSequence + 1 }

def finishedHeader : Bytes := [0x14, 0, 0, 12]

def finishedMessage (p : Peer) (f : FinishedItem) : Bytes :=
  let verifyData :=
    match Prf.verifyData p.dialogue.masterSecret f.label p.dialogue.transcript.finish with
    | .ok bs => bs
    | .error _ => []
  let message := finishedHeader ++ verifyData
  (match f.flip with
    | some i => Damage.flip message i
    | none => message) ++ f.append

def perform (p : Peer) : Item → Peer
  | .raw bs => p.deliver [.data bs]
  | .idle count => p.deliver (List.replicate count .idle)
  | .fault e => p.deliver [.fault e]
  | .handshake bs pieceLength =>
    let records := (Bytes.chunks pieceLength bs).map (recordBytes .handshake .tls12)
    { p.deliver (records.map .data) with
      dialogue.transcript := p.dialogue.transcript.update bs }
  | .changeCipherSpec =>
    { p.deliver [.data (recordBytes .changeCipherSpec .tls12 [1])] with
      dialogue.writeSequence := 0 }
  | .sealed contentType content s => p.deliverSealed contentType content s
  | .finished f s =>
    (Bytes.chunks f.pieceLength (p.finishedMessage f)).foldl
      (fun p piece => p.deliverSealed .handshake piece s) p

def performAll (p : Peer) (items : List Item) : Peer :=
  items.foldl perform p

end Peer
end TlsClient.Simulation
