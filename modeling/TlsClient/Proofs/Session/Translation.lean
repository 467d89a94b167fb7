import TlsClient.Proofs.Record.Attempts
import TlsClient.Session.Calls

/-!
Sessions that do the same. A session can be seen as one over another transport, if the transports
cannot be told apart by their operations, and as one that has heard another alert last, because
nothing asks for it. Every action goes along with such a change: it gives the same result, and the
sessions afterwards differ as they did before.
-/

namespace TlsClient.Session

open Network

/-- A change of sessions that no action can notice. -/
structure Translation (σ τ : Type) [Transport σ] [Transport τ] where
  transport : σ → τ
  commutes : Transport.Commutes transport
  lastAlert : Option Alert → Option Alert
  /-- An alert that is noted replaces the last one. -/
  lastAlert_some : ∀ alert, lastAlert (some alert) = some alert

variable {σ τ ρ α β : Type} [Transport σ] [Transport τ]

def Translation.apply (φ : Translation σ τ) (s : Session σ ρ) : Session τ ρ :=
  { s with transport := φ.transport s.transport, lastAlert := φ.lastAlert s.lastAlert }

/-- The action `b` does with the changed session what `a` does with the session. -/
def Follows (φ : Translation σ τ) (a : Action σ ρ α) (b : Action τ ρ α) : Prop :=
  ∀ s, b (φ.apply s) = match a s with
    | .ok x t => .ok x (φ.apply t)
    | .error e t => .error e (φ.apply t)

variable {φ : Translation σ τ}

namespace Follows

variable {a : Action σ ρ α} {b : Action τ ρ α}

theorem pure (x : α) : Follows φ (Pure.pure x : Action σ ρ α) (Pure.pure x) :=
  fun _ => rfl

theorem throw (e : Stop) :
    Follows φ (MonadExcept.throw e : Action σ ρ α) (MonadExcept.throw e) :=
  fun _ => rfl

theorem fail (e : Error) : Follows φ (Session.fail e : Action σ ρ α) (Session.fail e) :=
  fun _ => rfl

/-- A sequence goes along with a change that its parts go along with. -/
theorem bind {f : α → Action σ ρ β} {g : α → Action τ ρ β} (h : Follows φ a b)
    (hf : ∀ x, Follows φ (f x) (g x)) : Follows φ (a >>= f) (b >>= g) := by
  intro s
  have hs := h s
  simp only [Bind.bind, EStateM.bind]
  cases ha : a s with
  | ok x t =>
    rw [ha] at hs
    rw [hs]
    exact hf x t
  | error e t =>
    rw [ha] at hs
    rw [hs]

theorem bind_get {f : Session σ ρ → Action σ ρ β}
    {g : Session τ ρ → Action τ ρ β} (h : ∀ s, Follows φ (f s) (g (φ.apply s))) :
    Follows φ (get >>= f) (get >>= g) :=
  fun s => h s s

theorem current : Follows φ (Session.current : Action σ ρ Connection) Session.current :=
  fun _ => rfl

theorem update (f : Connection → Connection) :
    Follows φ (Session.update f : Action σ ρ Unit) (Session.update f) :=
  fun _ => rfl

theorem draw (f : ρ → α × ρ) :
    Follows φ (Session.draw f : Action σ ρ α) (Session.draw f) :=
  fun _ => rfl

theorem check (r : Except Error α) :
    Follows φ (Session.check r : Action σ ρ α) (Session.check r) := by
  cases r with
  | ok x => exact pure x
  | error e => exact fail e

/-- What is asked of a transport goes along with a change of it if the answers do. -/
theorem operate {f : σ → Except TransportError α × σ} {g : τ → Except TransportError α × τ}
    (h : ∀ t, g (φ.transport t) = ((f t).1, φ.transport (f t).2)) :
    Follows φ (Session.operate f : Action σ ρ α) (Session.operate g) := by
  intro s
  have hs := h s.transport
  unfold Session.operate
  simp only [Translation.apply, hs]
  rcases f s.transport with ⟨x | e, t⟩ <;> rfl

theorem attempt (h : Follows φ a b) : Follows φ (Session.attempt a) (Session.attempt b) := by
  intro s
  have hs := h s
  unfold Session.attempt
  cases ha : a s with
  | ok x t =>
    rw [ha] at hs
    rw [hs]
  | error e t =>
    rw [ha] at hs
    rw [hs]

theorem orFail (h : Follows φ a b) : Follows φ (Session.orFail a) (Session.orFail b) := by
  intro s
  have hs := h s
  unfold Session.orFail
  cases ha : a s with
  | ok x t =>
    rw [ha] at hs
    rw [hs]
  | error e t =>
    rw [ha] at hs
    rw [hs]
    rfl

theorem orSuspend (h : Follows φ a b) : Follows φ (Session.orSuspend a) (Session.orSuspend b) := by
  intro s
  have hs := h s
  unfold Session.orSuspend
  cases ha : a s with
  | ok x t =>
    rw [ha] at hs
    rw [hs]
  | error e t =>
    rw [ha] at hs
    rw [hs]
    by_cases he : isResumable e = true
    · simp only [if_pos he]
    · simp only [if_neg he]
      rfl

theorem link : Follows φ (Session.link : Action σ ρ LinkId) Session.link := by
  apply bind current
  intro c
  split
  · exact pure _
  · exact fail _

theorem advance (event : Event) :
    Follows φ (Session.advance event : Action σ ρ Unit) (Session.advance event) := by
  apply bind current
  intro c
  exact bind (check _) fun state => update _

/-- An alert that is noted is the last one from then on, whatever the last one was before. -/
theorem noteAlert (alert : Alert) :
    Follows φ (modify fun s => { s with lastAlert := some alert } : Action σ ρ Unit)
      (modify fun s => { s with lastAlert := some alert }) := by
  intro s
  show _ = EStateM.Result.ok () (φ.apply { s with lastAlert := some alert })
  simp only [Translation.apply, φ.lastAlert_some]
  rfl

theorem heed (content : Bytes) :
    Follows φ (Session.heed content : Action σ ρ α) (Session.heed content) := by
  apply bind (check _)
  intro alert
  apply bind (noteAlert alert)
  intro _
  split
  · exact fail _
  · exact fail _

theorem note (m : Bytes) : Follows φ (Session.note m : Action σ ρ Unit) (Session.note m) :=
  update _

theorem expect (kind : MessageType) (event : Event) :
    Follows φ (Session.expect kind event : Action σ ρ Unit) (Session.expect kind event) := by
  apply bind current
  intro c
  dsimp only
  split
  · exact pure _
  · exact fail _

theorem acceptHello (hello : ServerHello) :
    Follows φ (Session.acceptHello hello : Action σ ρ Unit) (Session.acceptHello hello) := by
  unfold Session.acceptHello
  split
  · exact fail _
  · apply bind_get
    intro s
    dsimp only [Translation.apply]
    split
    · exact fail _
    · split
      · exact fail _
      · exact update _

theorem acceptCertificate (chain : CertificateChain) :
    Follows φ (Session.acceptCertificate chain : Action σ ρ Unit)
      (Session.acceptCertificate chain) := by
  unfold Session.acceptCertificate
  split
  · exact fail _
  · exact bind (check _) fun key => update _

theorem checkAnnounced (buffered : Bytes) :
    Follows φ (Session.checkAnnounced buffered : Action σ ρ Unit)
      (Session.checkAnnounced buffered) := by
  unfold Session.checkAnnounced
  split
  · exact pure _
  · dsimp only
    split
    · exact fail _
    · exact pure _

theorem contentOf (record : Record) :
    Follows φ (Session.contentOf record : Action σ ρ Bytes) (Session.contentOf record) := by
  apply bind current
  intro c
  dsimp only
  split
  · exact pure _
  · apply bind_get
    intro s
    apply bind (check _)
    intro content
    apply bind (check _)
    intro sequence
    exact bind (update _) fun _ => pure _

theorem deriveKeys (preMaster : Bytes) :
    Follows φ (Session.deriveKeys preMaster : Action σ ρ Unit)
      (Session.deriveKeys preMaster) := by
  apply bind current
  intro c
  dsimp only
  split
  · exact fail _
  · apply bind (check _)
    intro master
    apply bind (update _)
    intro _
    apply bind (check _)
    intro block
    exact bind (check _) fun keys => update _

theorem verifyDataFor (label : String) :
    Follows φ (Session.verifyDataFor label : Action σ ρ Bytes)
      (Session.verifyDataFor label) :=
  bind current fun _ => check _

section
variable [RandomSource ρ]

theorem fragmentOf (protection : Option Protection) (contentType : ContentType) (payload : Bytes) :
    Follows φ (Session.fragmentOf protection contentType payload : Action σ ρ Bytes)
      (Session.fragmentOf protection contentType payload) := by
  unfold Session.fragmentOf
  split
  · exact pure _
  · apply bind current
    intro c
    apply bind (draw _)
    intro fragment
    apply bind (check _)
    intro sequence
    exact bind (update _) fun _ => pure _

end

theorem receiveWire : Follows φ (Session.receiveWire : Action σ ρ Record)
    Session.receiveWire := by
  apply bind link
  intro id s
  -- This is the one place where the session hears from the transport.
  have hread := s.connection.reader.read_map φ.commutes id s.config.pollLimit s.transport
  simp only [Translation.apply, hread]
  rcases s.connection.reader.read id s.config.pollLimit s.transport with ⟨record | e, reader, t⟩ <;>
    rfl

theorem receive : Follows φ (Session.receive : Action σ ρ Record) Session.receive := by
  apply bind receiveWire
  intro record
  apply bind (contentOf record)
  intro content
  split
  · exact fail _
  · exact pure _

/-- Messages are put together alike over both transports. -/
theorem receiveMessage (fuel : Nat) :
    Follows φ (Session.receiveMessage fuel : Action σ ρ Bytes)
      (Session.receiveMessage fuel) := by
  induction fuel with
  | zero => exact throw _
  | succ fuel ih =>
    apply bind current
    intro c
    dsimp only
    split
    · exact bind (update _) fun _ => pure _
    · apply bind (checkAnnounced _)
      intro _
      apply bind receive
      intro record
      split
      · exact bind (update _) fun _ => ih
      · exact heed _
      · exact fail _

theorem receiveFlight (fuel : Nat) :
    Follows φ (Session.receiveFlight fuel : Action σ ρ Unit)
      (Session.receiveFlight fuel) := by
  induction fuel with
  | zero => exact throw _
  | succ fuel ih =>
    apply bind (receiveMessage fuel)
    intro bytes
    apply bind current
    intro c
    apply bind (check _)
    intro message
    dsimp only
    split
    · exact ih
    · apply bind (note bytes)
      intro _
      split
      · apply bind (expect _ _)
        intro _
        apply bind (acceptHello _)
        intro _
        exact bind (advance _) fun _ => ih
      · apply bind (expect _ _)
        intro _
        apply bind (acceptCertificate _)
        intro _
        exact bind (advance _) fun _ => ih
      · exact bind (expect _ _) fun _ => advance _
      · exact bind current fun _ => fail _

theorem receiveChangeCipherSpec :
    Follows φ (Session.receiveChangeCipherSpec : Action σ ρ Unit)
      Session.receiveChangeCipherSpec := by
  apply bind receive
  intro record
  split
  · split
    · exact fail _
    · apply bind current
      intro c
      split
      · exact fail _
      · exact update _
  · exact heed _
  · exact fail _

theorem receiveFinished (fuel : Nat) :
    Follows φ (Session.receiveFinished fuel : Action σ ρ Unit)
      (Session.receiveFinished fuel) := by
  apply bind (verifyDataFor _)
  intro expected
  apply bind (receiveMessage fuel)
  intro bytes
  apply bind current
  intro c
  apply bind (check _)
  intro message
  split
  · split
    · exact note _
    · exact fail _
  · exact fail _

theorem skipFinished :
    Follows φ (Session.skipFinished : Action σ ρ Unit) Session.skipFinished := by
  apply bind receiveWire
  intro record
  apply bind current
  intro c
  apply bind (check _)
  intro sequence
  apply bind (update _)
  intro _
  split
  · exact pure _
  · exact fail _

theorem receiveEnd (fuel : Nat) :
    Follows φ (Session.receiveEnd fuel : Action σ ρ Unit) (Session.receiveEnd fuel) := by
  apply bind receiveChangeCipherSpec
  intro _
  apply bind_get
  intro s
  dsimp only [Translation.apply]
  split
  · exact bind (receiveFinished fuel) fun _ => advance _
  · exact bind skipFinished fun _ => advance _

theorem receiveData (fuel : Nat) :
    Follows φ (Session.receiveData fuel : Action σ ρ Unit) (Session.receiveData fuel) := by
  induction fuel with
  | zero => exact throw _
  | succ fuel ih =>
    apply bind receive
    intro record
    split
    · split
      · exact ih
      · exact update _
    · exact heed _
    · apply bind (check _)
      intro header
      split
      · exact ih
      · exact bind current fun _ => fail _
    · exact fail _

theorem recv (fuel room : Nat) :
    Follows φ (Session.recv fuel room : Action σ ρ Bytes) (Session.recv fuel room) := by
  have hcut : Follows φ
      (do
        let pending := (← Session.current).pending
        Session.update ({ · with pending := pending.drop room })
        return pending.take room : Action σ ρ Bytes)
      (do
        let pending := (← Session.current).pending
        Session.update ({ · with pending := pending.drop room })
        return pending.take room) :=
    bind current fun c => bind (update _) fun _ => pure _
  apply bind current
  intro c
  dsimp only
  split
  · split
    · exact bind (orSuspend (receiveData fuel)) fun _ => hcut
    · exact fail _
  · exact hcut

theorem unlink : Follows φ (Session.unlink : Action σ ρ Unit) Session.unlink := by
  apply bind current
  intro c
  split
  · exact pure _
  · exact bind (update _) fun _ => operate fun t => φ.commutes.close t _

variable [RandomSource ρ]

theorem transmit (protection : Option Protection) (contentType : ContentType) (payload : Bytes) :
    Follows φ (Session.transmit protection contentType payload : Action σ ρ Unit)
      (Session.transmit protection contentType payload) := by
  apply bind link
  intro id
  split
  · exact fail _
  · apply bind (fragmentOf _ _ _)
    intro fragment
    apply bind (operate fun t => φ.commutes.send t _ _)
    intro accepted
    split
    · exact pure _
    · exact fail _

theorem transmitProtected (contentType : ContentType) (payload : Bytes) :
    Follows φ (Session.transmitProtected contentType payload : Action σ ρ Unit)
      (Session.transmitProtected contentType payload) :=
  bind current fun _ => transmit _ _ _

theorem sendMessage (kind : MessageType) (body : HandshakeBody) :
    Follows φ (Session.sendMessage kind body : Action σ ρ Unit)
      (Session.sendMessage kind body) :=
  bind (note _) fun _ => transmitProtected _ _

theorem sendHello (now : Clock) (host : String) :
    Follows φ (Session.sendHello now host : Action σ ρ Unit)
      (Session.sendHello now host) := by
  unfold Session.sendHello
  split
  · exact fail _
  · apply bind (draw _)
    intro random
    apply bind (update _)
    intro _
    apply bind_get
    intro s
    exact bind (sendMessage _ _) fun _ => advance _

theorem sendKeyExchange (fuel : Nat) :
    Follows φ (Session.sendKeyExchange fuel : Action σ ρ Bytes)
      (Session.sendKeyExchange fuel) := by
  apply bind current
  intro c
  split
  · exact fail _
  · apply bind (draw _)
    intro random
    apply bind (draw _)
    intro encrypted
    split
    · exact throw _
    · apply bind (sendMessage _ _)
      intro _
      exact bind (advance _) fun _ => pure _

theorem sendChangeCipherSpec :
    Follows φ (Session.sendChangeCipherSpec : Action σ ρ Unit)
      Session.sendChangeCipherSpec := by
  apply bind (transmit _ _ _)
  intro _
  exact bind (update _) fun _ => advance _

theorem sendFinished :
    Follows φ (Session.sendFinished : Action σ ρ Unit) Session.sendFinished := by
  apply bind (verifyDataFor _)
  intro verifyData
  exact bind (sendMessage _ _) fun _ => advance _

theorem negotiate (fuel : Nat) (now : Clock) (host : String) (peer : Endpoint) :
    Follows φ (Session.negotiate fuel now host peer : Action σ ρ Unit)
      (Session.negotiate fuel now host peer) := by
  apply bind (operate fun t => φ.commutes.connect t peer)
  intro id
  apply bind (update _)
  intro _
  apply bind (sendHello now host)
  intro _
  apply bind (receiveFlight fuel)
  intro _
  apply bind (sendKeyExchange fuel)
  intro preMaster
  apply bind (deriveKeys preMaster)
  intro _
  apply bind sendChangeCipherSpec
  intro _
  exact bind sendFinished fun _ => receiveEnd fuel

/-- A handshake goes along with every change of this kind. -/
theorem handshake (fuel : Nat) (now : Clock) (host : String) (peer : Endpoint) :
    Follows φ (Session.handshake fuel now host peer : Action σ ρ Unit)
      (Session.handshake fuel now host peer) := by
  apply bind current
  intro c
  dsimp only
  split
  · exact orFail (negotiate fuel now host peer)
  · exact fail _

theorem send (data : Bytes) :
    Follows φ (Session.send data : Action σ ρ Nat) (Session.send data) := by
  apply bind current
  intro c
  dsimp only
  split
  · exact fail _
  · split
    · exact fail _
    · exact bind (transmitProtected _ _) fun _ => pure _

theorem farewell : Follows φ (Session.farewell : Action σ ρ Unit) Session.farewell := by
  apply bind current
  intro c
  split
  · exact transmitProtected _ _
  · exact pure _

theorem close : Follows φ (Session.close : Action σ ρ Unit) Session.close := by
  -- What has failed on the way is the same for both sessions.
  apply bind (attempt farewell)
  intro told
  apply bind (attempt unlink)
  intro unlinked
  apply bind (update _)
  intro _
  apply bind (advance _)
  intro _
  split
  · exact throw _
  · exact throw _
  · exact pure _

/-- So does a call. -/
theorem perform (c : Call) :
    Follows φ (Session.perform c : Action σ ρ Bytes) (Session.perform c) := by
  cases c with
  | send data => exact bind (send data) fun _ => pure _
  | recv fuel room => exact recv fuel room
  | close => exact bind close fun _ => pure _

end Follows

theorem Follows.after {a : Action σ ρ α} {b : Action τ ρ α} (h : Follows φ a b)
    (s : Session σ ρ) : Session.after b (φ.apply s) = φ.apply (Session.after a s) := by
  have hs := h s
  unfold Session.after
  rw [hs]
  cases a s <;> rfl

variable [RandomSource ρ]

theorem Translation.handedOut_apply (φ : Translation σ τ) (c : Call) (s : Session σ ρ) :
    handedOut c (φ.apply s) = handedOut c s := by
  have hfollows : Follows φ (perform c : Action σ ρ Bytes) (perform c) := .perform c
  have hs := hfollows s
  unfold handedOut
  rw [hs]
  cases perform c s <;> rfl

/-- So do calls in a row. -/
theorem Translation.afterCalls_apply (φ : Translation σ τ) (calls : List Call) (s : Session σ ρ) :
    afterCalls calls (φ.apply s) = φ.apply (afterCalls calls s) := by
  induction calls generalizing s with
  | nil => rfl
  | cons c cs ih =>
    rw [afterCalls, (Follows.perform c).after]
    exact ih _

theorem Translation.delivered_apply (φ : Translation σ τ) (calls : List Call) (s : Session σ ρ) :
    delivered calls (φ.apply s) = delivered calls s := by
  induction calls generalizing s with
  | nil => rfl
  | cons c cs ih =>
    rw [delivered, delivered, φ.handedOut_apply, (Follows.perform c).after, ih]

end TlsClient.Session
