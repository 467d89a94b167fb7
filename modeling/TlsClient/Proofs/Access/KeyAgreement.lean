import TlsClient.Proofs.Access.Hello
import TlsClient.Session.Handshake

namespace TlsClient.Session

open Network Wire

variable {τ ρ α : Type}

namespace Checked

/-- What follows may rely on the number of random bytes that were drawn. -/
theorem draw_fill_congr [RandomSource ρ] {n : Nat} {f g : Bytes → CheckedAction τ ρ α}
    (h : ∀ bs : Bytes, bs.length = n → f bs = g bs) :
    lift (Session.draw (RandomSource.fill · n)) >>= f =
      lift (Session.draw (RandomSource.fill · n)) >>= g := by
  funext s
  show f (RandomSource.fill s.random n).1 _ = g (RandomSource.fill s.random n).1 _
  rw [h _ (RandomSource.length_fill s.random n)]

def preMasterLength : Nat := 48

def deriveKeys (preMaster : Bytes) : CheckedAction τ ρ Unit := do
  let c ← lift current
  match c.suite with
  | none => lift (fail (.invalidState c.state))
  | some suite =>
    let master ← check
      ((Prf.Checked.masterSecret preMaster c.clientRandom c.serverRandom).adapt .crypto)
    lift (update ({ · with masterSecret := master }))
    let block ← check
      ((Prf.Checked.keyBlock master c.clientRandom c.serverRandom suite.keyBlockLength).adapt .crypto)
    let keys ← check ((KeyMaterial.Checked.ofKeyBlock suite block).adapt .crypto)
    let write ← access (Protection.Checked.ofKeys suite keys .client)
    let read ← access (Protection.Checked.ofKeys suite keys .server)
    lift (update ({ · with
      writeProtection := some write
      pendingReadProtection := some read }))

@[simp] theorem deriveKeys_eq (preMaster : Bytes) :
    (deriveKeys preMaster : CheckedAction τ ρ Unit) = lift (Session.deriveKeys preMaster) := by
  rw [deriveKeys, Session.deriveKeys, lift_bind]
  refine bind_congr fun c => ?_
  cases c.suite with
  | none => rfl
  | some suite =>
    simp only [Prf.Checked.masterSecret_eq, Prf.Checked.keyBlock_eq,
      KeyMaterial.Checked.ofKeyBlock_eq, Protection.Checked.ofKeys_eq, Checked.adapt_outcome,
      check_outcome, access_ok, pure_bind, lift_bind]

def verifyDataFor (label : String) : CheckedAction τ ρ Bytes := do
  let c ← lift current
  let hash ← access (Sha256.Checked.finish c.transcript)
  check ((Prf.Checked.verifyData c.masterSecret label hash).adapt .crypto)

@[simp] theorem verifyDataFor_eq (label : String) :
    (verifyDataFor label : CheckedAction τ ρ Bytes) = lift (Session.verifyDataFor label) := by
  simp only [verifyDataFor, Session.verifyDataFor, Sha256.Checked.finish_eq, Prf.Checked.verifyData_eq,
    Checked.adapt_outcome, check_outcome, access_ok, pure_bind, lift_bind]

section

variable [Transport τ] [RandomSource ρ]

def sendKeyExchange (fuel : Nat) : CheckedAction τ ρ Bytes := do
  match (← lift current).serverKey with
  | none => lift (fail (.certificate .noServerKey))
  | some key =>
    let version ← access (Checked.fill preMasterLength 0 2 ProtocolVersion.tls12.toBytes [])
    let random ← lift (Session.draw (RandomSource.fill · preMasterRandomLength))
    let preMaster ← access (Checked.fill preMasterLength 2 preMasterLength random version)
    match ← draw (PublicKey.Checked.encrypt key fuel preMaster) with
    | .error stop => lift (throw stop)
    | .ok encrypted =>
      sendMessage .clientKeyExchange (.clientKeyExchange ⟨encrypted⟩)
      lift (advance .sendClientKeyExchange)
      return preMaster

@[simp] theorem sendKeyExchange_eq (fuel : Nat) :
    (sendKeyExchange fuel : CheckedAction τ ρ Bytes) = lift (Session.sendKeyExchange fuel) := by
  rw [sendKeyExchange, Session.sendKeyExchange, lift_bind]
  refine bind_congr fun c => ?_
  cases c.serverKey with
  | none => rfl
  | some key =>
    dsimp only
    rw [Checked.fill_eq (by decide) (by decide) (by decide), access_ok, pure_bind, lift_bind]
    -- The random bytes fill the array behind the version.
    refine draw_fill_congr fun random hrandom => ?_
    have hencrypt := PublicKey.Checked.encrypt_eq (ρ := ρ) key fuel
    rw [Checked.fill_eq (by decide) (Nat.le_refl _) hrandom, access_ok, pure_bind, List.nil_append,
      draw_eq (hencrypt _), lift_bind]
    refine bind_congr fun encrypted => ?_
    cases encrypted with
    | error stop => rfl
    | ok encrypted => simp only [sendMessage_eq, lift_bind, lift_pure]

def sendChangeCipherSpec : CheckedAction τ ρ Unit := do
  transmit none .changeCipherSpec changeCipherSpec
  lift (update ({ · with clientSequence := 0 }))
  lift (advance .sendChangeCipherSpec)

@[simp] theorem sendChangeCipherSpec_eq :
    (sendChangeCipherSpec : CheckedAction τ ρ Unit) = lift Session.sendChangeCipherSpec := by
  simp only [sendChangeCipherSpec, Session.sendChangeCipherSpec, transmit_eq, lift_bind]

def sendFinished : CheckedAction τ ρ Unit := do
  let verifyData ← verifyDataFor "client finished"
  sendMessage .finished (.finished ⟨verifyData⟩)
  lift (advance .sendFinished)

@[simp] theorem sendFinished_eq :
    (sendFinished : CheckedAction τ ρ Unit) = lift Session.sendFinished := by
  simp only [sendFinished, Session.sendFinished, verifyDataFor_eq, sendMessage_eq, lift_bind]

end

section

variable [Transport τ]

def receiveChangeCipherSpec : CheckedAction τ ρ Unit := do
  let record ← receive
  match record.contentType with
  | .changeCipherSpec =>
    if record.fragment ≠ changeCipherSpec then
      lift (fail (.unexpectedMessage .malformedChangeCipherSpec))
    else if (← lift current).handshakeBuffer ≠ [] then
      lift (fail (.unexpectedMessage .changeCipherSpecInsideMessage))
    else
      lift (update fun c => { c with
        readProtection := c.pendingReadProtection
        pendingReadProtection := none
        serverSequence := 0 })
  | .alert => heed record.fragment
  | other => lift (fail (.unexpectedContentType other))

@[simp] theorem receiveChangeCipherSpec_eq :
    (receiveChangeCipherSpec : CheckedAction τ ρ Unit) = lift Session.receiveChangeCipherSpec := by
  rw [receiveChangeCipherSpec, Session.receiveChangeCipherSpec, lift_bind, receive_eq]
  refine bind_congr fun record => ?_
  cases record.contentType with
  | changeCipherSpec => simp only [lift_ite, lift_bind]
  | alert => exact heed_eq record.fragment
  | _ => rfl

def receiveFinished (fuel : Nat) : CheckedAction τ ρ Unit := do
  let expected ← verifyDataFor "server finished"
  let bytes ← receiveMessage fuel
  let c ← lift current
  let message ← parseMessage c.suite bytes
  match message.body with
  | .finished finished =>
    if finished.verify expected then note bytes else lift (fail .finishedMismatch)
  | _ => lift (fail (.unexpectedHandshake message.header.kind c.state))

@[simp] theorem receiveFinished_eq (fuel : Nat) :
    (receiveFinished fuel : CheckedAction τ ρ Unit) = lift (Session.receiveFinished fuel) := by
  simp only [receiveFinished, Session.receiveFinished, verifyDataFor_eq, receiveMessage_eq,
    parseMessage_eq, lift_bind]
  refine bind_congr fun expected => bind_congr fun bytes => bind_congr fun c =>
    bind_congr fun message => ?_
  cases message.body with
  | finished finished => simp only [note_eq, lift_ite]
  | _ => rfl

def skipFinished : CheckedAction τ ρ Unit := do
  let record ← receiveWire
  let sequence ← lift (Session.check (nextSequence (← lift current).serverSequence))
  lift (update ({ · with serverSequence := sequence }))
  if record.contentType = .handshake then return ()
  else lift (fail (.unexpectedContentType record.contentType))

@[simp] theorem skipFinished_eq :
    (skipFinished : CheckedAction τ ρ Unit) = lift Session.skipFinished := by
  simp only [skipFinished, Session.skipFinished, receiveWire_eq, lift_bind, lift_ite, lift_pure]

def receiveEnd (fuel : Nat) : CheckedAction τ ρ Unit := do
  receiveChangeCipherSpec
  if (← get).config.verifyFinished then receiveFinished fuel else skipFinished
  lift (advance .serverFinished)

@[simp] theorem receiveEnd_eq (fuel : Nat) :
    (receiveEnd fuel : CheckedAction τ ρ Unit) = lift (Session.receiveEnd fuel) := by
  simp only [receiveEnd, Session.receiveEnd, receiveChangeCipherSpec_eq, receiveFinished_eq,
    skipFinished_eq, lift_bind, lift_ite, lift_get]

end

/-- An action that leaves something else of the session when it stops. Nothing is left of one that has
gone out of range. -/
def onStop (f : Stop → Session τ ρ → Session τ ρ) (a : CheckedAction τ ρ α) : CheckedAction τ ρ α :=
  fun s =>
    match a s with
    | .error (.stopped e) s => .error (.stopped e) (f e s)
    | r => r

/-- What is done about a stop cannot tell a checked action from a plain one. -/
theorem onStop_lift (f : Stop → Session τ ρ → Session τ ρ) (a : Action τ ρ α) :
    onStop f (lift a) = lift fun s =>
      match a s with
      | .ok x s => .ok x s
      | .error e s => .error e (f e s) := by
  funext s
  dsimp only [onStop, lift]
  cases a s <;> rfl

variable [Transport τ] [RandomSource ρ]

def negotiate (fuel : Nat) (now : Clock) (host : String) (peer : Endpoint) :
    CheckedAction τ ρ Unit := do
  let id ← lift (operate (Transport.connect · peer))
  lift (update ({ · with link := some id }))
  sendHello now host
  receiveFlight fuel
  let preMaster ← sendKeyExchange fuel
  deriveKeys preMaster
  sendChangeCipherSpec
  sendFinished
  receiveEnd fuel

@[simp] theorem negotiate_eq (fuel : Nat) (now : Clock) (host : String) (peer : Endpoint) :
    (negotiate fuel now host peer : CheckedAction τ ρ Unit) =
      lift (Session.negotiate fuel now host peer) := by
  simp only [negotiate, Session.negotiate, sendHello_eq, receiveFlight_eq, sendKeyExchange_eq,
    deriveKeys_eq, sendChangeCipherSpec_eq, sendFinished_eq, receiveEnd_eq, lift_bind]

def handshake (fuel : Nat) (now : Clock) (host : String) (peer : Endpoint) :
    CheckedAction τ ρ Unit := do
  let state := (← lift current).state
  if state = .init then
    onStop (fun _ s => { s with connection := s.connection.failed }) (negotiate fuel now host peer)
  else lift (fail (.invalidState state))

/-- No handshake leaves a region, whatever the server does in the course of it. -/
theorem handshake_eq (fuel : Nat) (now : Clock) (host : String) (peer : Endpoint) :
    (handshake fuel now host peer : CheckedAction τ ρ Unit) =
      lift (Session.handshake fuel now host peer) := by
  simp only [handshake, Session.handshake, negotiate_eq, onStop_lift, lift_bind, lift_ite]
  rfl

end Checked
end TlsClient.Session
