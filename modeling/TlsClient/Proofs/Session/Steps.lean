import Mathlib.Logic.Relation
import TlsClient.Proofs.Record.Attempts
import TlsClient.Proofs.Session.Boundaries
import TlsClient.Proofs.Session.Reassembly
import TlsClient.Session.Calls

/-!
What a session does to its buffers, one thing at a time. A `Step` asks the transport once, moves one
record or one message, or leaves the buffers alone; every call is a sequence of steps (`call_steps`),
and so is every part of it (`Part.steps`) and every series of attempts (`read_steps`). So whatever a
step preserves holds at every point of every call.
-/

namespace TlsClient.Session

open Network

variable {τ ρ α β : Type}

inductive Output where
  | quiet
  /-- A message for the parser of handshake messages. -/
  | message (bytes : Bytes)
  /-- The content of a record for a buffer. -/
  | content (bytes : Bytes)
  /-- Data for the client. -/
  | data (bytes : Bytes)

section
variable [Transport τ]

/-- The smallest parts that all actions on sessions are made of, as far as buffers are concerned. -/
inductive Step : Session τ ρ → Output → Session τ ρ → Prop
  /-- Every buffer is left alone or given up, and the transport is not asked. -/
  | aside {s t : Session τ ρ} (htransport : t.transport = s.transport)
    (hreader : t.connection.reader = s.connection.reader ∨ t.connection.reader = .empty)
    (hbuffer : t.connection.handshakeBuffer = s.connection.handshakeBuffer ∨
      t.connection.handshakeBuffer = [])
    (hpending : t.connection.pending = s.connection.pending ∨ t.connection.pending = []) :
    Step s .quiet t
  | connects (s : Session τ ρ) (peer : Endpoint) :
    Step s .quiet { s with transport := (Transport.connect s.transport peer).2 }
  | sends (s : Session τ ρ) (id : LinkId) (bytes : Bytes) :
    Step s .quiet { s with transport := (Transport.send s.transport id bytes).2 }
  | closes (s : Session τ ρ) (id : LinkId) :
    Step s .quiet { s with transport := (Transport.close s.transport id).2 }
  /-- The transport is asked for bytes only while the reader has no complete record. -/
  | arrives {s : Session τ ρ} {id : LinkId} {bytes : Bytes} {transport : τ}
    (hnext : s.connection.reader.next? = .ok none)
    (h : RecordReader.attempt id s.transport = (.ok bytes, transport)) :
    Step s .quiet { s with transport, connection.reader := s.connection.reader.append bytes }
  | fails {s : Session τ ρ} {id : LinkId} {e : Error} {transport : τ}
    (hnext : s.connection.reader.next? = .ok none)
    (h : RecordReader.attempt id s.transport = (.error e, transport)) :
    Step s .quiet { s with transport }
  | record {s : Session τ ρ} {record : Record} {reader : RecordReader}
    (hnext : s.connection.reader.next? = .ok (some (record, reader))) :
    Step s .quiet { s with connection.reader := reader }
  /-- A content is added to the handshake buffer only if that has to grow. -/
  | gathers {s : Session τ ρ} {content : Bytes} (hshort : content.length ≤ Record.maxPlaintext)
    (hwaits : Waits s.connection.handshakeBuffer) :
    Step s (.content content) { s with
      connection.handshakeBuffer := s.connection.handshakeBuffer ++ content }
  | message {s : Session τ ρ} {n : Nat}
    (h : Handshake.completeLength s.connection.handshakeBuffer = some n) :
    Step s (.message (s.connection.handshakeBuffer.take n)) { s with
      connection.handshakeBuffer := s.connection.handshakeBuffer.drop n }
  | brings (s : Session τ ρ) {content : Bytes} (hshort : content.length ≤ Record.maxPlaintext) :
    Step s (.content content) { s with connection.pending := content }
  | handsOut (s : Session τ ρ) (room : Nat) :
    Step s (.data (s.connection.pending.take room)) { s with
      connection.pending := s.connection.pending.drop room }

def Steps : Session τ ρ → Session τ ρ → Prop :=
  Relation.ReflTransGen fun s t => ∃ out, Step s out t

theorem Step.steps {s t : Session τ ρ} {out : Output} (h : Step s out t) : Steps s t :=
  .single ⟨out, h⟩

theorem Steps.refl (s : Session τ ρ) : Steps s s :=
  Relation.ReflTransGen.refl

theorem Steps.trans {s t u : Session τ ρ} (h : Steps s t) (h' : Steps t u) : Steps s u :=
  Relation.ReflTransGen.trans h h'

/-- What leaves the buffers alone is a step. -/
theorem Steps.aside {s t : Session τ ρ} (htransport : t.transport = s.transport)
    (hreader : t.connection.reader = s.connection.reader)
    (hbuffer : t.connection.handshakeBuffer = s.connection.handshakeBuffer)
    (hpending : t.connection.pending = s.connection.pending) : Steps s t :=
  (Step.aside htransport (.inl hreader) (.inl hbuffer) (.inl hpending)).steps

/-- Whatever the action comes to, it is made of steps. -/
def Proceeds (a : Action τ ρ α) : Prop :=
  ∀ s, Ends a s (fun _ t => Steps s t) (fun _ t => Steps s t)

end

/-- An update of a connection that has nothing to do with its buffers. -/
structure Spares (f : Connection → Connection) : Prop where
  reader : ∀ c, (f c).reader = c.reader
  handshakeBuffer : ∀ c, (f c).handshakeBuffer = c.handshakeBuffer
  pending : ∀ c, (f c).pending = c.pending

namespace Proceeds

variable [Transport τ] {a : Action τ ρ α}

theorem of_same (h : ∀ s, Ends a s (fun _ t => t = s) (fun _ t => t = s)) : Proceeds a := by
  intro s
  apply (h s).mono
  · rintro _ _ rfl
    exact Steps.refl _
  · rintro _ _ rfl
    exact Steps.refl _

theorem pure (x : α) : Proceeds (Pure.pure x : Action τ ρ α) :=
  of_same fun _ => rfl

theorem throw (e : Stop) : Proceeds (MonadExcept.throw e : Action τ ρ α) :=
  of_same fun _ => rfl

theorem fail (e : Error) : Proceeds (Session.fail e : Action τ ρ α) :=
  of_same fun _ => rfl

theorem current : Proceeds (Session.current : Action τ ρ Connection) :=
  of_same fun _ => rfl

theorem get : Proceeds (MonadState.get : Action τ ρ (Session τ ρ)) :=
  of_same fun _ => rfl

/-- A sequence is made of the steps of its parts. -/
theorem bind {f : α → Action τ ρ β} (h : Proceeds a) (hf : ∀ x, Proceeds (f x)) :
    Proceeds (a >>= f) := by
  intro s
  apply Ends.bind (h s)
  intro x t hx
  apply (hf x t).mono
  · intro _ _ ht
    exact hx.trans ht
  · intro _ _ ht
    exact hx.trans ht

theorem check (r : Except Error α) : Proceeds (Session.check r : Action τ ρ α) := by
  cases r with
  | ok x => exact pure x
  | error e => exact fail e

theorem update {f : Connection → Connection} (hf : Spares f) :
    Proceeds (Session.update f : Action τ ρ Unit) := by
  intro s
  apply ends_update
  exact .aside rfl (hf.reader _) (hf.handshakeBuffer _) (hf.pending _)

theorem draw (f : ρ → α × ρ) : Proceeds (Session.draw f : Action τ ρ α) := by
  intro s
  show Steps s { s with random := (f s.random).2 }
  exact .aside rfl rfl rfl rfl

/-- What is asked of a transport is made of steps if the answer is. -/
theorem operate {f : τ → Except TransportError α × τ}
    (h : ∀ s : Session τ ρ, Steps s { s with transport := (f s.transport).2 }) :
    Proceeds (Session.operate f : Action τ ρ α) := by
  intro s
  have hs := h s
  unfold Ends Session.operate
  rcases hf : f s.transport with ⟨e | x, t⟩
  · rw [hf] at hs
    exact hs
  · rw [hf] at hs
    exact hs

theorem attempt (h : Proceeds a) : Proceeds (Session.attempt a) :=
  fun s => attempt_ends (h s)

theorem failed (s : Session τ ρ) : Steps s { s with connection := s.connection.failed } := by
  have hstep : Step s .quiet { s with connection := s.connection.failed } :=
    .aside rfl (.inl rfl) (.inl rfl) (.inr rfl)
  exact hstep.steps

/-- Giving up a connection empties its buffers, which is a step too. -/
theorem orFail (h : Proceeds a) : Proceeds (Session.orFail a) := by
  intro s
  apply orFail_ends
  apply (h s).mono (fun _ _ ht => ht)
  intro _ t ht
  exact ht.trans (failed t)

theorem orSuspend (h : Proceeds a) : Proceeds (Session.orSuspend a) := by
  intro s
  apply orSuspend_ends
  apply (h s).mono (fun _ _ ht => ht)
  intro e t ht
  split
  · exact ht
  · exact ht.trans (failed t)

theorem link : Proceeds (Session.link : Action τ ρ LinkId) := by
  apply bind current
  intro c
  split
  · exact pure _
  · exact fail _

theorem advance (event : Event) : Proceeds (Session.advance event : Action τ ρ Unit) :=
  bind current fun _ => bind (check _) fun _ =>
    update ⟨fun _ => rfl, fun _ => rfl, fun _ => rfl⟩

/-! ### Receiving -/

/-- Waiting for a record is a series of attempts, with the record taken off at the end. -/
theorem steps_of_run {id : LinkId} {polls : Nat} {r r' : RecordReader} {t t' : τ}
    {answer : Except Error Record} (h : RecordReader.Run id polls r t answer r' t')
    {s : Session τ ρ} (htransport : s.transport = t) (hreader : s.connection.reader = r) :
    Steps s { s with transport := t', connection.reader := r' } := by
  induction h generalizing s with
  | found hnext =>
    subst htransport hreader
    exact (Step.record hnext).steps
  | refused _ =>
    subst htransport hreader
    exact Steps.refl s
  | timeout _ =>
    subst htransport hreader
    exact Steps.refl s
  | failed hnext hattempt =>
    subst htransport hreader
    exact (Step.fails hnext hattempt).steps
  | next hnext hattempt _ ih =>
    subst htransport hreader
    exact (Step.arrives hnext hattempt).steps.trans (ih rfl rfl)

theorem receiveWire : Proceeds (Session.receiveWire : Action τ ρ Record) := by
  apply bind link
  intro id s
  have hrun := s.connection.reader.read_run id s.config.pollLimit s.transport
  unfold Ends
  rcases hread : s.connection.reader.read id s.config.pollLimit s.transport with
    ⟨record | e, reader, t⟩
  · simp only [hread] at hrun ⊢
    exact steps_of_run hrun rfl rfl
  · simp only [hread] at hrun ⊢
    exact steps_of_run hrun rfl rfl

theorem contentOf (record : Record) : Proceeds (Session.contentOf record : Action τ ρ Bytes) := by
  apply bind current
  intro c
  dsimp only
  split
  · exact pure _
  · refine bind get fun _ => bind (check _) fun _ => bind (check _) fun _ => bind (update ?_) fun _ =>
      pure _
    exact ⟨fun _ => rfl, fun _ => rfl, fun _ => rfl⟩

theorem receive : Proceeds (Session.receive : Action τ ρ Record) := by
  apply bind receiveWire
  intro record
  apply bind (contentOf record)
  intro content
  split
  · exact fail _
  · exact pure _

theorem heed (content : Bytes) : Proceeds (Session.heed content : Action τ ρ α) := by
  intro s
  apply (heed_ends content s).mono (fun _ _ h => h)
  rintro _ _ ⟨lastAlert, rfl⟩
  exact .aside rfl rfl rfl rfl

/-- A received content is not too long, and receiving it has not touched the handshake buffer. -/
theorem receive_gives (s : Session τ ρ) :
    Ends Session.receive s
      (fun r t => Steps s t ∧ r.fragment.length ≤ Record.maxPlaintext ∧
        t.connection.handshakeBuffer = s.connection.handshakeBuffer)
      (fun _ t => Steps s t) := by
  apply (Ends.and_eq_ok (receive s)).mono (fun r t h => ?_) fun _ _ h => h
  obtain ⟨hsteps, hok⟩ := h
  obtain ⟨record, content, _, -, -, hshort, rfl⟩ := receive_eq_ok_iff.1 hok
  exact ⟨hsteps, hshort, receive_buffer hok⟩

omit [Transport τ] in
/-- What has to grow is announced within the limit, and not complete. -/
theorem checkAnnounced_gives {b : Bytes} (hb : Handshake.completeLength b = none)
    (s : Session τ ρ) :
    Ends (Session.checkAnnounced b) s (fun _ t => t = s ∧ Waits b) (fun _ t => t = s) := by
  rcases complete_or_overlong_or_waits b with ⟨n, hn, hle⟩ | ⟨n, hn, -, hlimit⟩ | hwaits
  · rw [Handshake.completeLength_eq_some_iff_announced.2 ⟨hn, hle⟩] at hb
    cases hb
  · unfold Ends
    rw [checkAnnounced_overlong hn hlimit]
  · unfold Ends
    rw [checkAnnounced_waits hwaits]
    exact ⟨rfl, hwaits⟩

/-- A message that is received is what the last step hands on. -/
theorem receiveMessage_gives (fuel : Nat) (s : Session τ ρ) :
    Ends (Session.receiveMessage fuel) s
      (fun m t => ∃ u, Steps s u ∧ Step u (.message m) t)
      (fun _ t => Steps s t) := by
  induction fuel generalizing s with
  | zero => exact ends_throw (Steps.refl s)
  | succ fuel ih =>
    apply Ends.bind_current
    dsimp only
    split
    · rename_i n hn
      exact Ends.bind_update (ends_pure ⟨s, Steps.refl s, Step.message hn⟩)
    · rename_i hnone
      refine Ends.bind_mono (checkAnnounced_gives hnone s) ?_ ?_
      · rintro _ _ rfl
        exact Steps.refl _
      rintro _ _ ⟨rfl, hwaits⟩
      apply Ends.bind (receive_gives _)
      rintro record t ⟨hsteps, hshort, hbuffer⟩
      split
      · -- The buffer that has to grow is the one that was looked at before.
        apply Ends.bind_update
        have hmore := hsteps.trans (Step.gathers hshort (hbuffer ▸ hwaits)).steps
        apply (ih _).mono
        · rintro m v ⟨u, hu, hlast⟩
          exact ⟨u, hmore.trans hu, hlast⟩
        · intro _ v hv
          exact hmore.trans hv
      · apply (heed_ends _ t).mono (fun _ _ h => h)
        rintro _ _ ⟨lastAlert, rfl⟩
        exact hsteps.trans (.aside rfl rfl rfl rfl)
      · exact ends_fail hsteps

/-- Reassembly moves one record at a time, and only while no message is complete. -/
theorem receiveMessage (fuel : Nat) :
    Proceeds (Session.receiveMessage fuel : Action τ ρ Bytes) := by
  intro s
  apply (receiveMessage_gives fuel s).mono (fun _ _ h => ?_) fun _ _ h => h
  obtain ⟨u, hu, hlast⟩ := h
  exact hu.trans hlast.steps

theorem note (m : Bytes) : Proceeds (Session.note m : Action τ ρ Unit) :=
  update ⟨fun _ => rfl, fun _ => rfl, fun _ => rfl⟩

theorem expect (kind : MessageType) (event : Event) :
    Proceeds (Session.expect kind event : Action τ ρ Unit) := by
  apply bind current
  intro c
  dsimp only
  split
  · exact pure _
  · exact fail _

theorem acceptHello (hello : ServerHello) :
    Proceeds (Session.acceptHello hello : Action τ ρ Unit) := by
  unfold Session.acceptHello
  split
  · exact fail _
  · apply bind get
    intro s
    split
    · exact fail _
    · split
      · exact fail _
      · exact update ⟨fun _ => rfl, fun _ => rfl, fun _ => rfl⟩

theorem acceptCertificate (chain : CertificateChain) :
    Proceeds (Session.acceptCertificate chain : Action τ ρ Unit) := by
  unfold Session.acceptCertificate
  split
  · exact fail _
  · exact bind (check _) fun _ => update ⟨fun _ => rfl, fun _ => rfl, fun _ => rfl⟩

theorem receiveFlight (fuel : Nat) :
    Proceeds (Session.receiveFlight fuel : Action τ ρ Unit) := by
  induction fuel with
  | zero => exact throw _
  | succ fuel ih =>
    apply bind (receiveMessage fuel)
    intro bytes
    refine bind current fun c => bind (check _) fun message => ?_
    dsimp only
    split
    · exact ih
    · apply bind (note bytes)
      intro _
      split
      · exact bind (expect _ _) fun _ => bind (acceptHello _) fun _ => bind (advance _) fun _ => ih
      · exact bind (expect _ _) fun _ => bind (acceptCertificate _) fun _ =>
          bind (advance _) fun _ => ih
      · exact bind (expect _ _) fun _ => advance _
      · exact bind current fun _ => fail _

theorem deriveKeys (preMaster : Bytes) :
    Proceeds (Session.deriveKeys preMaster : Action τ ρ Unit) := by
  apply bind current
  intro c
  split
  · exact fail _
  · apply bind (check _)
    intro master
    refine bind (update ⟨fun _ => rfl, fun _ => rfl, fun _ => rfl⟩) fun _ => ?_
    refine bind (check _) fun _ => bind (check _) fun _ => ?_
    exact update ⟨fun _ => rfl, fun _ => rfl, fun _ => rfl⟩

theorem verifyDataFor (label : String) :
    Proceeds (Session.verifyDataFor label : Action τ ρ Bytes) :=
  bind current fun _ => check _

theorem receiveChangeCipherSpec :
    Proceeds (Session.receiveChangeCipherSpec : Action τ ρ Unit) := by
  apply bind receive
  intro record
  split
  · split
    · exact fail _
    · apply bind current
      intro c
      split
      · exact fail _
      · exact update ⟨fun _ => rfl, fun _ => rfl, fun _ => rfl⟩
  · exact heed _
  · exact fail _

theorem receiveFinished (fuel : Nat) :
    Proceeds (Session.receiveFinished fuel : Action τ ρ Unit) := by
  apply bind (verifyDataFor _)
  intro expected
  apply bind (receiveMessage fuel)
  intro bytes
  refine bind current fun c => bind (check _) fun message => ?_
  split
  · split
    · exact note _
    · exact fail _
  · exact fail _

theorem skipFinished : Proceeds (Session.skipFinished : Action τ ρ Unit) := by
  apply bind receiveWire
  intro record
  refine bind current fun c => bind (check _) fun sequence => ?_
  refine bind (update ⟨fun _ => rfl, fun _ => rfl, fun _ => rfl⟩) fun _ => ?_
  split
  · exact pure _
  · exact fail _

theorem receiveEnd (fuel : Nat) : Proceeds (Session.receiveEnd fuel : Action τ ρ Unit) := by
  apply bind receiveChangeCipherSpec
  intro _
  apply bind get
  intro s
  dsimp only
  split
  · exact bind (receiveFinished fuel) fun _ => advance _
  · exact bind skipFinished fun _ => advance _

theorem receiveData (fuel : Nat) : Proceeds (Session.receiveData fuel : Action τ ρ Unit) := by
  induction fuel with
  | zero => exact throw _
  | succ fuel ih =>
    intro s
    apply Ends.bind (receive_gives s)
    rintro record t ⟨hsteps, hshort, -⟩
    have hmore {a : Action τ ρ Unit} (ha : Proceeds a) :
        Ends a t (fun _ v => Steps s v) (fun _ v => Steps s v) :=
      (ha t).mono (fun _ _ hv => hsteps.trans hv) fun _ _ hv => hsteps.trans hv
    split
    · split
      · exact hmore ih
      · exact ends_update (hsteps.trans (Step.brings t hshort).steps)
    · exact hmore (heed _)
    · apply hmore
      apply bind (check _)
      intro header
      split
      · exact ih
      · exact bind current fun _ => fail _
    · exact hmore (fail _)

/-- The data that a client gets is what the last step hands on. -/
theorem recv_gives (fuel room : Nat) (s : Session τ ρ) :
    Ends (Session.recv fuel room) s
      (fun bs t => ∃ u, Steps s u ∧ Step u (.data bs) t)
      (fun _ t => Steps s t) := by
  apply Ends.bind_current
  dsimp only
  split
  · split
    · apply Ends.bind (orSuspend (receiveData fuel) s)
      intro _ t ht
      apply Ends.bind_current
      exact Ends.bind_update (ends_pure ⟨t, ht, Step.handsOut t room⟩)
    · exact ends_fail (Steps.refl s)
  · apply Ends.bind_current
    exact Ends.bind_update (ends_pure ⟨s, Steps.refl s, Step.handsOut s room⟩)

theorem recv (fuel room : Nat) : Proceeds (Session.recv fuel room : Action τ ρ Bytes) := by
  intro s
  apply (recv_gives fuel room s).mono (fun _ _ h => ?_) fun _ _ h => h
  obtain ⟨u, hu, hlast⟩ := h
  exact hu.trans hlast.steps

theorem unlink : Proceeds (Session.unlink : Action τ ρ Unit) := by
  apply bind current
  intro c
  split
  · exact pure _
  · refine bind (update ⟨fun _ => rfl, fun _ => rfl, fun _ => rfl⟩) fun _ => ?_
    exact operate fun s => (Step.closes s _).steps

/-! ### Sending, and whole calls -/

section
variable [RandomSource ρ]

theorem fragmentOf (protection : Option Protection) (contentType : ContentType) (payload : Bytes) :
    Proceeds (Session.fragmentOf protection contentType payload : Action τ ρ Bytes) := by
  unfold Session.fragmentOf
  split
  · exact pure _
  · refine bind current fun _ => bind (draw _) fun _ => bind (check _) fun _ => bind (update ?_)
      fun _ => pure _
    exact ⟨fun _ => rfl, fun _ => rfl, fun _ => rfl⟩

theorem transmit (protection : Option Protection) (contentType : ContentType) (payload : Bytes) :
    Proceeds (Session.transmit protection contentType payload : Action τ ρ Unit) := by
  apply bind link
  intro id
  split
  · exact fail _
  · apply bind (fragmentOf _ _ _)
    intro fragment
    refine bind (operate fun s => (Step.sends s id _).steps) fun accepted => ?_
    split
    · exact pure _
    · exact fail _

theorem transmitProtected (contentType : ContentType) (payload : Bytes) :
    Proceeds (Session.transmitProtected contentType payload : Action τ ρ Unit) :=
  bind current fun _ => transmit _ _ _

theorem sendMessage (kind : MessageType) (body : HandshakeBody) :
    Proceeds (Session.sendMessage kind body : Action τ ρ Unit) :=
  bind (note _) fun _ => transmitProtected _ _

theorem sendHello (now : Clock) (host : String) :
    Proceeds (Session.sendHello now host : Action τ ρ Unit) := by
  unfold Session.sendHello
  split
  · exact fail _
  · apply bind (draw _)
    intro random
    refine bind (update ⟨fun _ => rfl, fun _ => rfl, fun _ => rfl⟩) fun _ => ?_
    exact bind get fun s => bind (sendMessage _ _) fun _ => advance _

theorem sendKeyExchange (fuel : Nat) :
    Proceeds (Session.sendKeyExchange fuel : Action τ ρ Bytes) := by
  apply bind current
  intro c
  split
  · exact fail _
  · apply bind (draw _)
    intro random
    apply bind (draw _)
    intro encrypted
    split
    · exact throw _
    · exact bind (sendMessage _ _) fun _ => bind (advance _) fun _ => pure _

theorem sendChangeCipherSpec : Proceeds (Session.sendChangeCipherSpec : Action τ ρ Unit) := by
  apply bind (transmit _ _ _)
  intro _
  exact bind (update ⟨fun _ => rfl, fun _ => rfl, fun _ => rfl⟩) fun _ => advance _

theorem sendFinished : Proceeds (Session.sendFinished : Action τ ρ Unit) :=
  bind (verifyDataFor _) fun _ => bind (sendMessage _ _) fun _ => advance _

theorem negotiate (fuel : Nat) (now : Clock) (host : String) (peer : Endpoint) :
    Proceeds (Session.negotiate fuel now host peer : Action τ ρ Unit) := by
  refine bind (operate fun s => (Step.connects s peer).steps) fun id => ?_
  refine bind (update ⟨fun _ => rfl, fun _ => rfl, fun _ => rfl⟩) fun _ => ?_
  apply bind (sendHello now host)
  intro _
  apply bind (receiveFlight fuel)
  intro _
  apply bind (sendKeyExchange fuel)
  intro preMaster
  refine bind (deriveKeys preMaster) fun _ => bind sendChangeCipherSpec fun _ => ?_
  exact bind sendFinished fun _ => receiveEnd fuel

theorem handshake (fuel : Nat) (now : Clock) (host : String) (peer : Endpoint) :
    Proceeds (Session.handshake fuel now host peer : Action τ ρ Unit) := by
  apply bind current
  intro c
  dsimp only
  split
  · exact orFail (negotiate fuel now host peer)
  · exact fail _

theorem send (data : Bytes) : Proceeds (Session.send data : Action τ ρ Nat) := by
  apply bind current
  intro c
  dsimp only
  split
  · exact fail _
  · split
    · exact fail _
    · exact bind (transmitProtected _ _) fun _ => pure _

theorem farewell : Proceeds (Session.farewell : Action τ ρ Unit) := by
  apply bind current
  intro c
  split
  · exact transmitProtected _ _
  · exact pure _

theorem close : Proceeds (Session.close : Action τ ρ Unit) := by
  apply bind (attempt farewell)
  intro told
  apply bind (attempt unlink)
  intro unlinked
  refine bind (fun s => ?_) fun _ => bind (advance _) fun _ => ?_
  · -- Closing is the one thing that gives all buffers up.
    have hstep : Step s .quiet { s with connection := s.connection.reset } :=
      .aside rfl (.inr rfl) (.inr rfl) (.inr rfl)
    exact hstep.steps
  · split
    · exact throw _
    · exact throw _
    · exact pure _

theorem perform (c : Call) : Proceeds (Session.perform c : Action τ ρ Bytes) := by
  cases c with
  | send data => exact bind (send data) fun _ => pure _
  | recv fuel room => exact recv fuel room
  | close => exact bind close fun _ => pure _

end

end Proceeds

variable [Transport τ] [RandomSource ρ]

inductive Part : {α : Type} → Action τ ρ α → Prop
  | receiveWire : Part receiveWire
  | contentOf (record : Record) : Part (contentOf record)
  | receive : Part receive
  | heed {α : Type} (content : Bytes) : Part (heed content : Action τ ρ α)
  | receiveMessage (fuel : Nat) : Part (receiveMessage fuel)
  | receiveFlight (fuel : Nat) : Part (receiveFlight fuel)
  | receiveChangeCipherSpec : Part receiveChangeCipherSpec
  | receiveFinished (fuel : Nat) : Part (receiveFinished fuel)
  | skipFinished : Part skipFinished
  | receiveEnd (fuel : Nat) : Part (receiveEnd fuel)
  | receiveData (fuel : Nat) : Part (receiveData fuel)
  | recv (fuel room : Nat) : Part (recv fuel room)
  | transmit (protection : Option Protection) (contentType : ContentType) (payload : Bytes) :
    Part (transmit protection contentType payload)
  | sendMessage (kind : MessageType) (body : HandshakeBody) : Part (sendMessage kind body)
  | sendHello (now : Clock) (host : String) : Part (sendHello now host)
  | sendKeyExchange (fuel : Nat) : Part (sendKeyExchange fuel)
  | deriveKeys (preMaster : Bytes) : Part (deriveKeys preMaster)
  | sendChangeCipherSpec : Part sendChangeCipherSpec
  | sendFinished : Part sendFinished
  | negotiate (fuel : Nat) (now : Clock) (host : String) (peer : Endpoint) :
    Part (negotiate fuel now host peer)
  | handshake (fuel : Nat) (now : Clock) (host : String) (peer : Endpoint) :
    Part (handshake fuel now host peer)
  | send (data : Bytes) : Part (send data)
  | farewell : Part farewell
  | unlink : Part unlink
  | close : Part close

/-- Every part of a handshake or a call is made of steps. -/
theorem Part.proceeds {α : Type} {a : Action τ ρ α} (h : Part a) : Proceeds a := by
  cases h with
  | receiveWire => exact .receiveWire
  | contentOf record => exact .contentOf record
  | receive => exact .receive
  | heed content => exact .heed content
  | receiveMessage fuel => exact .receiveMessage fuel
  | receiveFlight fuel => exact .receiveFlight fuel
  | receiveChangeCipherSpec => exact .receiveChangeCipherSpec
  | receiveFinished fuel => exact .receiveFinished fuel
  | skipFinished => exact .skipFinished
  | receiveEnd fuel => exact .receiveEnd fuel
  | receiveData fuel => exact .receiveData fuel
  | recv fuel room => exact .recv fuel room
  | transmit protection contentType payload => exact .transmit protection contentType payload
  | sendMessage kind body => exact .sendMessage kind body
  | sendHello now host => exact .sendHello now host
  | sendKeyExchange fuel => exact .sendKeyExchange fuel
  | deriveKeys preMaster => exact .deriveKeys preMaster
  | sendChangeCipherSpec => exact .sendChangeCipherSpec
  | sendFinished => exact .sendFinished
  | negotiate fuel now host peer => exact .negotiate fuel now host peer
  | handshake fuel now host peer => exact .handshake fuel now host peer
  | send data => exact .send data
  | farewell => exact .farewell
  | unlink => exact .unlink
  | close => exact .close

/-- A part that stops or ends has come there by steps. -/
theorem Part.steps {α : Type} {a : Action τ ρ α} (h : Part a) (s : Session τ ρ) :
    Steps s (after a s) :=
  Ends.after (P := Steps s) (h.proceeds s)

omit [RandomSource ρ] in
/-- Waiting for a record has come by steps to where it is after any number of attempts. -/
theorem read_steps (id : LinkId) (polls : Nat) (s : Session τ ρ) :
    Steps s { s with
      transport := (s.connection.reader.read id polls s.transport).2.2
      connection.reader := (s.connection.reader.read id polls s.transport).2.1 } :=
  Proceeds.steps_of_run (s.connection.reader.read_run id polls s.transport) rfl rfl

/-- Every call is a sequence of steps, whatever becomes of it. -/
theorem call_steps (c : Call) (s : Session τ ρ) : Steps s (after (perform c) s) :=
  Ends.after (P := Steps s) (Proceeds.perform c s)

omit [RandomSource ρ] in
/-- What every step preserves is the same after any number of them. -/
theorem Steps.preserve {P : Session τ ρ → Prop} (hstep : ∀ s out t, Step s out t → P s → P t)
    {s t : Session τ ρ} (h : Steps s t) (hs : P s) : P t := by
  induction h with
  | refl => exact hs
  | tail _ h ih =>
    obtain ⟨out, h⟩ := h
    exact hstep _ out _ h ih

omit [RandomSource ρ] in
/-- No step takes a byte back that has arrived. -/
theorem Step.received {s t : Session (Recorded τ) ρ} {out : Output} (h : Step s out t) :
    s.transport.received <+: t.transport.received := by
  cases h with
  | aside htransport => exact htransport ▸ List.prefix_rfl
  | @arrives id _ _ _ hattempt =>
    have hreceived := (RecordReader.received_attempt id s.transport).1
    rw [hattempt] at hreceived
    exact ⟨_, hreceived.symm⟩
  | @fails id _ _ _ hattempt =>
    have hreceived := (RecordReader.received_attempt id s.transport).1
    rw [hattempt] at hreceived
    exact ⟨_, hreceived.symm⟩
  | _ => exact List.prefix_rfl

omit [RandomSource ρ] in
/-- Nothing that has arrived is forgotten on the way. -/
theorem Steps.received {s t : Session (Recorded τ) ρ} (h : Steps s t) :
    s.transport.received <+: t.transport.received :=
  h.preserve (P := fun u => s.transport.received <+: u.transport.received)
    (fun _ _ _ hstep hs => hs.trans hstep.received) List.prefix_rfl

/-- What every step preserves holds of all that a client can hold. -/
theorem Reachable.of_steps {P : Session τ ρ → Prop}
    (hstart : ∀ t config random, P (Session.start t config random))
    (hstep : ∀ s out t, Step s out t → P s → P t) {s : Session τ ρ} (hs : Reachable s) : P s := by
  induction hs with
  | start t config random => exact hstart t config random
  | handshake _ fuel now host peer ih =>
    exact Steps.preserve hstep ((Part.handshake fuel now host peer).steps _) ih
  | call _ c ih => exact Steps.preserve hstep (call_steps c _) ih

end TlsClient.Session
