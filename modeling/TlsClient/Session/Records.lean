import TlsClient.Session.Action

namespace TlsClient.Session

open Network

variable {τ ρ α : Type} [Transport τ] [RandomSource ρ]

def fragmentOf (protection : Option Protection) (contentType : ContentType) (payload : Bytes) :
    Action τ ρ Bytes := do
  match protection with
  | none => return payload
  | some p =>
    let sequence := (← current).clientSequence
    let fragment ← draw (p.protect ⟨sequence, contentType, .tls12⟩ payload)
    let sequence ← check (nextSequence sequence)
    -- The number is used up from here on, also if the record is never accepted.
    update ({ · with clientSequence := sequence })
    return fragment

def transmit (protection : Option Protection) (contentType : ContentType) (payload : Bytes) :
    Action τ ρ Unit := do
  let id ← link
  if payload.length > Record.maxPlaintext then
    fail (.tooLong payload.length Record.maxPlaintext)
  else
    let fragment ← fragmentOf protection contentType payload
    let record := Record.toBytes ⟨contentType, .tls12, fragment⟩
    let accepted ← operate (Transport.send · id record)
    -- The peer cannot make anything of a record that was cut short.
    if accepted = record.length then return ()
    else fail (.transport (.shortWrite accepted record.length))

def transmitProtected (contentType : ContentType) (payload : Bytes) : Action τ ρ Unit := do
  transmit (← current).writeProtection contentType payload

def receiveWire : Action τ ρ Record := do
  let id ← link
  fun s =>
    match s.connection.reader.read id s.config.pollLimit s.transport with
    | (.ok record, reader, t) =>
      .ok record { s with transport := t, connection.reader := reader }
    -- What has arrived of the record stays in the reader.
    | (.error e, reader, t) =>
      .error (.failed e) { s with transport := t, connection.reader := reader }

def contentOf (record : Record) : Action τ ρ Bytes := do
  let c ← current
  match c.readProtection with
  | none => return record.fragment
  | some p =>
    let context : RecordContext := ⟨c.serverSequence, record.contentType, record.version⟩
    let content ← check (p.unprotect context record.fragment (← get).config.verifyMac)
    let sequence ← check (nextSequence c.serverSequence)
    -- Only a record that opens takes a number.
    update ({ · with serverSequence := sequence })
    return content

def receive : Action τ ρ Record := do
  let record ← receiveWire
  let content ← contentOf record
  -- The limit on fragments leaves room for contents that are too long.
  if content.length > Record.maxPlaintext then
    fail (.tooLong content.length Record.maxPlaintext)
  else return { record with fragment := content }

/-- Notes an alert and stops: with the end of the connection if the alert announces it, with the
alert itself otherwise. -/
def heed (content : Bytes) : Action τ ρ α := do
  let alert ← check (Alert.parse.parse content)
  modify ({ · with lastAlert := some alert })
  if alert.isCloseNotify then fail .connectionClosed else fail (.alertReceived alert)

end TlsClient.Session
