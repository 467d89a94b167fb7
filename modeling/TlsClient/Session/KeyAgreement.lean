import TlsClient.Prf
import TlsClient.Rsa.Encryption
import TlsClient.Session.Hello

namespace TlsClient.Session

open Network

variable {τ ρ : Type} [Transport τ] [RandomSource ρ]

def preMasterRandomLength : Nat := 46

def sendKeyExchange (fuel : Nat) : Action τ ρ Bytes := do
  match (← current).serverKey with
  | none => fail (.certificate .noServerKey)
  | some key =>
    let random ← draw (RandomSource.fill · preMasterRandomLength)
    -- In front of the random bytes stands the version that the hello has offered.
    let preMaster := ProtocolVersion.tls12.toBytes ++ random
    match ← draw (key.encrypt fuel preMaster) with
    | .error stop => throw stop
    | .ok encrypted =>
      sendMessage .clientKeyExchange (.clientKeyExchange ⟨encrypted⟩)
      advance .sendClientKeyExchange
      return preMaster

def deriveKeys (preMaster : Bytes) : Action τ ρ Unit := do
  let c ← current
  match c.suite with
  | none => fail (.invalidState c.state)
  | some suite =>
    let client := c.clientRandom.toBytes
    let server := c.serverRandom.toBytes
    let master ← check ((Prf.masterSecret preMaster client server).mapError .crypto)
    -- The secret is kept even if no keys can be made from it; a failure wipes it.
    update ({ · with masterSecret := master })
    let block ← check ((Prf.keyBlock master client server suite.keyBlockLength).mapError .crypto)
    let keys ← check ((KeyMaterial.ofKeyBlock suite block).mapError .crypto)
    update ({ · with
      writeProtection := some (Protection.ofKeys suite keys .client)
      -- The server may still be sending in the clear.
      pendingReadProtection := some (Protection.ofKeys suite keys .server) })

def changeCipherSpec : Bytes := [1]

/-- Announces the write keys, still without them. -/
def sendChangeCipherSpec : Action τ ρ Unit := do
  -- The write keys are in place already and have to be passed over.
  transmit none .changeCipherSpec changeCipherSpec
  update ({ · with clientSequence := 0 })
  advance .sendChangeCipherSpec

def verifyDataFor (label : String) : Action τ ρ Bytes := do
  let c ← current
  check ((Prf.verifyData c.masterSecret label c.transcript.finish).mapError .crypto)

def sendFinished : Action τ ρ Unit := do
  let verifyData ← verifyDataFor "client finished"
  sendMessage .finished (.finished ⟨verifyData⟩)
  advance .sendFinished

def receiveChangeCipherSpec : Action τ ρ Unit := do
  let record ← receive
  match record.contentType with
  | .changeCipherSpec =>
    if record.fragment ≠ changeCipherSpec then
      fail (.unexpectedMessage .malformedChangeCipherSpec)
    -- A message must not begin in the clear and end under the keys.
    else if (← current).handshakeBuffer ≠ [] then
      fail (.unexpectedMessage .changeCipherSpecInsideMessage)
    else
      update fun c => { c with
        readProtection := c.pendingReadProtection
        pendingReadProtection := none
        serverSequence := 0 }
  | .alert => heed record.fragment
  | other => fail (.unexpectedContentType other)

def receiveFinished (fuel : Nat) : Action τ ρ Unit := do
  -- The verify data covers everything before this message, so it is computed first.
  let expected ← verifyDataFor "server finished"
  let bytes ← receiveMessage fuel
  let c ← current
  let message ← check ((Handshake.parse c.suite).parse bytes)
  match message.body with
  | .finished finished =>
    if finished.verify expected then note bytes else fail .finishedMismatch
  | _ => fail (.unexpectedHandshake message.header.kind c.state)

/-- Counts one handshake record in place of the server's Finished message and does not open it. -/
def skipFinished : Action τ ρ Unit := do
  let record ← receiveWire
  -- The record was protected, so it has taken a number.
  let sequence ← check (nextSequence (← current).serverSequence)
  update ({ · with serverSequence := sequence })
  if record.contentType = .handshake then return ()
  else fail (.unexpectedContentType record.contentType)

def receiveEnd (fuel : Nat) : Action τ ρ Unit := do
  receiveChangeCipherSpec
  if (← get).config.verifyFinished then receiveFinished fuel else skipFinished
  advance .serverFinished

end TlsClient.Session
