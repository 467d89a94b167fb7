import TlsClient.Proofs.Access.Protection
import TlsClient.Proofs.Access.Reading
import TlsClient.Session.Calls

/-!
Actions of a session with every access checked. A checked action that never leaves its bounds is the
`lift` of an action, and lifting commutes with putting actions together. Here are the actions that send
and receive one record, whose lengths are the server's as far as it is received.
-/

namespace TlsClient.Session

open Network

/-- What ends a checked action early: what stops the action itself, or an access out of range. -/
inductive Halt where
  | stopped (stop : Stop)
  | outOfRange (access : Access)

abbrev CheckedAction (τ ρ α : Type) := EStateM Halt (Session τ ρ) α

variable {τ ρ α β : Type}

def lift (a : Action τ ρ α) : CheckedAction τ ρ α := fun s =>
  match a s with
  | .ok a s => .ok a s
  | .error e s => .error (.stopped e) s

@[simp] theorem lift_pure (a : α) : lift (pure a : Action τ ρ α) = pure a := rfl

@[simp] theorem lift_get : lift (get : Action τ ρ (Session τ ρ)) = get := rfl

@[simp] theorem lift_bind (a : Action τ ρ α) (f : α → Action τ ρ β) :
    lift (a >>= f) = lift a >>= fun x => lift (f x) := by
  funext s
  show (match (a >>= f) s with | .ok x s => _ | .error e s => _ : EStateM.Result Halt _ β) = _
  simp only [Bind.bind, EStateM.bind, lift]
  cases a s <;> rfl

@[simp] theorem lift_ite (c : Prop) [Decidable c] (a b : Action τ ρ α) :
    lift (if c then a else b) = if c then lift a else lift b :=
  apply_ite lift c a b

namespace Checked

def access (x : Checked α) : CheckedAction τ ρ α := fun s =>
  match x with
  | .ok a => .ok a s
  | .error a => .error (.outOfRange a) s

@[simp] theorem access_ok (a : α) : (access (.ok a) : CheckedAction τ ρ α) = pure a := rfl

def check (x : Checked.Attempt Error α) : CheckedAction τ ρ α := do
  lift (Session.check (← access x.run))

@[simp] theorem check_outcome (r : Except Error α) :
    (check (Checked.outcome r) : CheckedAction τ ρ α) = lift (Session.check r) := rfl

def draw (f : ρ → Checked (α × ρ)) : CheckedAction τ ρ α := fun s =>
  match f s.random with
  | .ok (a, r) => .ok a { s with random := r }
  | .error a => .error (.outOfRange a) s

/-- What is drawn in range can be drawn by a session in range. -/
theorem draw_eq {f : ρ → Checked (α × ρ)} {g : ρ → α × ρ} (h : ∀ r, f r = .ok (g r)) :
    (draw f : CheckedAction τ ρ α) = lift (Session.draw g) := by
  funext s
  rw [draw, h]
  rfl

/-! ### Receiving -/

def heed (content : Bytes) : CheckedAction τ ρ α := do
  let alert ← check (Wire.Parser.Checked.parse Alert.Checked.parse content)
  modify ({ · with lastAlert := some alert })
  if alert.isCloseNotify then lift (fail .connectionClosed) else lift (fail (.alertReceived alert))

@[simp] theorem heed_eq (content : Bytes) :
    (heed content : CheckedAction τ ρ α) = lift (Session.heed content) := by
  have hmodify (f : Session τ ρ → Session τ ρ) :
      lift (modify f : Action τ ρ PUnit) = (modify f : CheckedAction τ ρ PUnit) := rfl
  simp [heed, Session.heed, Wire.Parser.Checked.parse_lift, hmodify]

def contentOf (record : Record) : CheckedAction τ ρ Bytes := do
  let c ← lift current
  match c.readProtection with
  | none => return record.fragment
  | some p =>
    let context : RecordContext := ⟨c.serverSequence, record.contentType, record.version⟩
    let content ← check
      (Protection.Checked.unprotect p context record.fragment (← get).config.verifyMac)
    let sequence ← lift (Session.check (nextSequence c.serverSequence))
    lift (update ({ · with serverSequence := sequence }))
    return content

@[simp] theorem contentOf_eq (record : Record) :
    (contentOf record : CheckedAction τ ρ Bytes) = lift (Session.contentOf record) := by
  rw [contentOf, Session.contentOf, lift_bind]
  refine bind_congr fun c => ?_
  cases c.readProtection with
  | none => rfl
  | some p =>
    simp only [Protection.Checked.unprotect_eq, check_outcome, lift_bind, lift_get, lift_pure]

section

variable [Transport τ]

def readFrom (id : LinkId) : CheckedAction τ ρ Record := fun s =>
  match RecordReader.Checked.read id s.config.pollLimit s.connection.reader s.transport with
  | .ok (.ok record, reader, t) =>
    .ok record { s with transport := t, connection.reader := reader }
  | .ok (.error e, reader, t) =>
    .error (.stopped (.failed e)) { s with transport := t, connection.reader := reader }
  | .error a => .error (.outOfRange a) s

def receiveWire : CheckedAction τ ρ Record := do
  readFrom (← lift link)

@[simp] theorem receiveWire_eq :
    (receiveWire : CheckedAction τ ρ Record) = lift Session.receiveWire := by
  refine Eq.trans (bind_congr fun id => ?_) (lift_bind link _).symm
  funext s
  rw [readFrom, RecordReader.Checked.read_eq]
  dsimp only [lift]
  rcases s.connection.reader.read id s.config.pollLimit s.transport with ⟨e | record, reader, t⟩ <;> rfl

def receive : CheckedAction τ ρ Record := do
  let record ← receiveWire
  let content ← contentOf record
  if content.length > Record.maxPlaintext then
    lift (fail (.tooLong content.length Record.maxPlaintext))
  else return { record with fragment := content }

@[simp] theorem receive_eq : (receive : CheckedAction τ ρ Record) = lift Session.receive := by
  simp [receive, Session.receive]

end

/-! ### Sending -/

variable [RandomSource ρ]

def fragmentOf (protection : Option Protection) (contentType : ContentType) (payload : Bytes) :
    CheckedAction τ ρ Bytes := do
  match protection with
  | none => return payload
  | some p =>
    let sequence := (← lift current).clientSequence
    let fragment ← draw (Protection.Checked.protect p ⟨sequence, contentType, .tls12⟩ payload)
    let sequence ← lift (Session.check (nextSequence sequence))
    lift (update ({ · with clientSequence := sequence }))
    return fragment

@[simp] theorem fragmentOf_eq (protection : Option Protection) (contentType : ContentType)
    (payload : Bytes) : (fragmentOf protection contentType payload : CheckedAction τ ρ Bytes) =
      lift (Session.fragmentOf protection contentType payload) := by
  cases protection with
  | none => rfl
  | some p =>
    have hdraw (context : RecordContext) :
        (draw (Protection.Checked.protect p context payload) : CheckedAction τ ρ Bytes) =
          lift (Session.draw (p.protect context payload)) :=
      draw_eq (Protection.Checked.protect_eq p context payload)
    simp only [fragmentOf, Session.fragmentOf, hdraw, lift_bind, lift_pure]

variable [Transport τ]

def transmit (protection : Option Protection) (contentType : ContentType) (payload : Bytes) :
    CheckedAction τ ρ Unit := do
  let id ← lift link
  if payload.length > Record.maxPlaintext then
    lift (fail (.tooLong payload.length Record.maxPlaintext))
  else
    let fragment ← fragmentOf protection contentType payload
    let record := Record.toBytes ⟨contentType, .tls12, fragment⟩
    let accepted ← lift (operate (Transport.send · id record))
    if accepted = record.length then return ()
    else lift (fail (.transport (.shortWrite accepted record.length)))

@[simp] theorem transmit_eq (protection : Option Protection) (contentType : ContentType)
    (payload : Bytes) : (transmit protection contentType payload : CheckedAction τ ρ Unit) =
      lift (Session.transmit protection contentType payload) := by
  simp [transmit, Session.transmit]

def transmitProtected (contentType : ContentType) (payload : Bytes) : CheckedAction τ ρ Unit := do
  transmit (← lift current).writeProtection contentType payload

@[simp] theorem transmitProtected_eq (contentType : ContentType) (payload : Bytes) :
    (transmitProtected contentType payload : CheckedAction τ ρ Unit) =
      lift (Session.transmitProtected contentType payload) := by
  simp [transmitProtected, Session.transmitProtected]

end Checked
end TlsClient.Session
