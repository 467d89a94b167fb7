import TlsClient.Session.Handshake

namespace TlsClient.Session

open Network

variable {τ ρ : Type} [Transport τ] [RandomSource ρ]

def send (data : Bytes) : Action τ ρ Nat := do
  let state := (← current).state
  if !state.isEstablished then fail (.invalidState state)
  else if data.length > Record.maxPlaintext then fail (.tooLong data.length Record.maxPlaintext)
  else
    transmitProtected .applicationData data
    return data.length

/-- Receives records until one of them, out of at most `fuel`, brings application data. Requests to
start over are passed over. -/
def receiveData : (fuel : Nat) → Action τ ρ Unit
  | 0 => throw .unfinished
  | fuel + 1 => do
    let record ← receive
    match record.contentType with
    | .applicationData =>
      -- An empty record is no data, nor the end of the data.
      if record.fragment = [] then receiveData fuel
      else update ({ · with pending := record.fragment })
    | .alert => heed record.fragment
    | .handshake =>
      let header ← check (HandshakeHeader.parse.parse record.fragment)
      if header.kind = .helloRequest then receiveData fuel
      else fail (.unexpectedHandshake header.kind (← current).state)
    | other => fail (.unexpectedContentType other)

/-- Whether a session can go on after it stopped while receiving. -/
def isResumable : Stop → Bool
  | .unfinished => true
  -- None of these has taken a record off the wire without opening it.
  | .failed .timeout | .failed (.transport _) | .failed .connectionClosed => true
  | .failed _ => false

def orSuspend {α : Type} (a : Action τ ρ α) : Action τ ρ α := fun s =>
  match a s with
  | .ok a s => .ok a s
  | .error e s =>
    .error e (if isResumable e then s else { s with connection := s.connection.failed })

/-- Application data, at most `room` bytes. What is left of a record is kept for the next time. -/
def recv (fuel room : Nat) : Action τ ρ Bytes := do
  let c ← current
  -- What is pending has been opened already and is handed out in any state.
  if c.pending = [] then
    if c.state.isEstablished then orSuspend (receiveData fuel) else fail (.invalidState c.state)
  let pending := (← current).pending
  update ({ · with pending := pending.drop room })
  return pending.take room

def farewell : Action τ ρ Unit := do
  if (← current).state.isEstablished then transmitProtected .alert Alert.closeNotify.toBytes

def unlink : Action τ ρ Unit := do
  match (← current).link with
  | none => return ()
  | some id =>
    -- The handle is given up whether or not the transport can close it.
    update ({ · with link := none })
    operate (Transport.close · id)

/-- Ends the session. Whatever fails on the way, nothing of the connection is left; the first
failure is reported. -/
def close : Action τ ρ Unit := do
  let told ← attempt farewell
  -- The transport is closed even if the farewell could not be sent.
  let unlinked ← attempt unlink
  update .reset
  advance .close
  match told, unlinked with
  | .error e, _ => throw e
  | .ok (), .error e => throw e
  | .ok (), .ok () => return ()

end TlsClient.Session
