import TlsClient.Proofs.Record.Acceptance
import TlsClient.Proofs.Rsa.Recovery
import TlsClient.Proofs.Session.Reassembly

/-!
What actions take off the wire. `Takes records s t` says that between two sessions the transport was
used, random numbers were drawn, and of the bytes that have arrived exactly the given records were
used up. An action is `Quiet` if it leaves the stream alone and `Prompt` if it takes records off it;
neither ever runs out of patience, so everything but the loops is one or the other.
-/

namespace TlsClient.Session

open Network

variable {τ ρ α β : Type}

/-! ### Transports with a limited supply -/

inductive Use where
  | connect (peer : Endpoint)
  | send (id : LinkId) (bytes : Bytes)
  | recv (id : LinkId) (limit : Nat)
  | close (id : LinkId)
  | poll

section
variable [Transport τ]

def afterUse (t : τ) : Use → τ
  | .connect peer => (Transport.connect t peer).2
  | .send id bytes => (Transport.send t id bytes).2
  | .recv id limit => (Transport.recv t id limit).2
  | .close id => (Transport.close t id).2
  | .poll => Transport.poll t

def afterUses (uses : List Use) (t : τ) : τ :=
  uses.foldl afterUse t

/-- Whatever is done with the transport, no more than `total` bytes will have arrived in all. -/
def EndsBy (total : Nat) (t : Recorded τ) : Prop :=
  ∀ uses, (afterUses uses t).received.length ≤ total

/-- Whatever is done with the transport, at most `n` more bytes arrive. -/
def Supplies (n : Nat) (t : Recorded τ) : Prop :=
  EndsBy (t.received.length + n) t

theorem afterUses_append (us vs : List Use) (t : τ) :
    afterUses (us ++ vs) t = afterUses vs (afterUses us t) :=
  List.foldl_append

theorem EndsBy.after {total : Nat} {t : Recorded τ} (h : EndsBy total t) (us : List Use) :
    EndsBy total (afterUses us t) :=
  fun vs => afterUses_append us vs t ▸ h (us ++ vs)

/-- An attempt to receive is one use or two. -/
theorem attempt_uses (id : LinkId) (t : τ) :
    ∃ uses, (RecordReader.attempt id t).2 = afterUses uses t := by
  unfold RecordReader.attempt
  rcases hrecv : Transport.recv t id RecordReader.receiveLimit with ⟨e | (_ | ⟨b, bs⟩), u⟩
  all_goals obtain rfl : (Transport.recv t id RecordReader.receiveLimit).2 = u := by rw [hrecv]
  · exact ⟨[.recv id _], rfl⟩
  · dsimp only
    split
    · exact ⟨[.recv id _], rfl⟩
    · exact ⟨[.recv id _, .poll], rfl⟩
  · exact ⟨[.recv id _], rfl⟩

/-- Reading a record is some uses of the transport in a row. -/
theorem read_uses (id : LinkId) (polls : Nat) (r : RecordReader) (t : τ) :
    ∃ uses, (r.read id polls t).2.2 = afterUses uses t := by
  have hrun := r.read_run id polls t
  generalize (r.read id polls t).1 = answer, (r.read id polls t).2.1 = r',
    (r.read id polls t).2.2 = t' at hrun
  induction hrun with
  | found _ => exact ⟨[], rfl⟩
  | refused _ => exact ⟨[], rfl⟩
  | timeout _ => exact ⟨[], rfl⟩
  | @failed _ _ t _ _ _ hattempt =>
    have huses := attempt_uses id t
    rwa [hattempt] at huses
  | @next _ _ _ t _ _ _ _ _ hattempt _ ih =>
    obtain ⟨us, hus⟩ := attempt_uses id t
    obtain ⟨vs, hvs⟩ := ih
    rw [hattempt] at hus
    change _ = afterUses us t at hus
    refine ⟨us ++ vs, ?_⟩
    rw [hvs, afterUses_append, ← hus]

end

/-! ### What is drawn -/

section
variable [RandomSource ρ]

theorem leads_protect (p : Protection) (context : RecordContext) (content : Bytes) (r : ρ) :
    RandomSource.Leads r (p.protect context content r).2 := by
  cases p with
  | gcm cipher iv => exact .refl r
  | cbc keys macKey => exact .fill _ (.refl r)

theorem leads_nonZeroBytes (fuel count : Nat) (r : ρ) :
    RandomSource.Leads r (PublicKey.nonZeroBytes fuel count r).2 := by
  induction fuel generalizing count r with
  | zero => cases count <;> exact .refl r
  | succ fuel ih =>
    cases count with
    | zero => exact .refl r
    | succ count =>
      have hfirst := (RandomSource.Leads.refl r).fill 1
      rw [PublicKey.nonZeroBytes]
      dsimp only
      split
      · exact hfirst.trans (ih _ _)
      · exact hfirst.trans (ih _ _)

/-- Encryption leaves a source in a state that drawing leads to. -/
theorem leads_encrypt (key : PublicKey) (fuel : Nat) (message : Bytes) (r : ρ) :
    RandomSource.Leads r (key.encrypt fuel message r).2 := by
  have hdrawn := leads_nonZeroBytes fuel (key.byteLength - message.length - 3) r
  unfold PublicKey.encrypt PublicKey.pad
  split
  · rename_i r' hpad
    split at hpad
    · cases hpad
    · split at hpad <;> simp_all
  · rename_i r' hpad
    split at hpad
    · cases hpad
      exact .refl _
    · split at hpad <;> simp_all

end

/-! ### Stretches of a run -/

/-- Between `s` and `t` the given records were taken off the stream, each of them complete: what was
in the reader and what has arrived are these records and what is in the reader now. No more of them
than their fragments has come into the handshake buffer. -/
structure Takes [Transport τ] [RandomSource ρ] (records : List Record)
    (s t : Session (Recorded τ) ρ) : Prop where
  acceptable : ∀ record ∈ records, record.Acceptable
  uses : ∃ uses, t.transport = afterUses uses s.transport
  draws : RandomSource.Leads s.random t.random
  arrival : ∃ arrived, t.transport.received = s.transport.received ++ arrived ∧
    s.connection.reader.buffer ++ arrived = wire records ++ t.connection.reader.buffer
  buffered : t.connection.handshakeBuffer.length + RecordHeader.byteLength * records.length ≤
    s.connection.handshakeBuffer.length + (wire records).length

variable [Transport τ] [RandomSource ρ] {s t u : Session (Recorded τ) ρ}
  {records more : List Record}

namespace Takes

theorem of_same (htransport : t.transport = s.transport)
    (hrandom : RandomSource.Leads s.random t.random) (hreader : t.connection.reader = s.connection.reader)
    (hbuffer : t.connection.handshakeBuffer.length ≤ s.connection.handshakeBuffer.length) :
    Takes [] s t where
  acceptable := by simp
  uses := ⟨[], htransport⟩
  draws := hrandom
  arrival := ⟨[], by rw [htransport, List.append_nil], by rw [hreader, List.append_nil]; rfl⟩
  buffered := hbuffer

theorem refl (s : Session (Recorded τ) ρ) : Takes [] s s :=
  of_same rfl (.refl _) rfl (Nat.le_refl _)

/-- Records that are taken one after the other are taken together. -/
theorem trans (h : Takes records s t) (h' : Takes more t u) : Takes (records ++ more) s u := by
  obtain ⟨us, hus⟩ := h.uses
  obtain ⟨vs, hvs⟩ := h'.uses
  obtain ⟨arrived, hreceived, hreader⟩ := h.arrival
  obtain ⟨arrived', hreceived', hreader'⟩ := h'.arrival
  have hbuffered := h.buffered
  have hbuffered' := h'.buffered
  refine ⟨List.forall_mem_append.2 ⟨h.acceptable, h'.acceptable⟩,
    ⟨us ++ vs, by rw [hvs, hus, afterUses_append]⟩, h.draws.trans h'.draws,
    ⟨arrived ++ arrived', ?_, ?_⟩, ?_⟩
  · rw [hreceived', hreceived, List.append_assoc]
  · rw [← List.append_assoc, hreader, List.append_assoc, hreader', wire_append, List.append_assoc]
  · rw [wire_append, List.length_append, List.length_append, Nat.mul_add]
    omega

end Takes

def Took (s t : Session (Recorded τ) ρ) : Prop :=
  ∃ records, Takes records s t

theorem Took.refl (s : Session (Recorded τ) ρ) : Took s s :=
  ⟨[], .refl s⟩

theorem Took.trans (h : Took s t) (h' : Took t u) : Took s u := by
  obtain ⟨records, h⟩ := h
  obtain ⟨more, h'⟩ := h'
  exact ⟨_, h.trans h'⟩

structure Still (s t : Session (Recorded τ) ρ) : Prop where
  transport : t.transport = s.transport
  random : RandomSource.Leads s.random t.random
  reader : t.connection.reader = s.connection.reader
  handshakeBuffer : t.connection.handshakeBuffer = s.connection.handshakeBuffer

namespace Still

omit [Transport τ]

theorem refl (s : Session (Recorded τ) ρ) : Still s s :=
  ⟨rfl, .refl _, rfl, rfl⟩

theorem trans (h : Still s t) (h' : Still t u) : Still s u :=
  ⟨h'.transport.trans h.transport, h.random.trans h'.random, h'.reader.trans h.reader,
    h'.handshakeBuffer.trans h.handshakeBuffer⟩

end Still

/-- If nothing has happened to the stream, no record was taken off it. -/
theorem Still.takes (h : Still s t) : Takes [] s t :=
  .of_same h.transport h.random h.reader (congrArg List.length h.handshakeBuffer).le

theorem Still.took (h : Still s t) : Took s t :=
  ⟨[], h.takes⟩

/-! ### Quiet and prompt actions -/

omit [Transport τ] [RandomSource ρ] in
/-- Whatever the action comes to, the sessions before and after it are related, and it does not stop
for want of patience. -/
def Relates (R : Session τ ρ → Session τ ρ → Prop) (a : Action τ ρ α) : Prop :=
  ∀ s, Ends a s (fun _ t => R s t) (fun e t => e ≠ .unfinished ∧ R s t)

omit [Transport τ] [RandomSource ρ] in
/-- What relates sessions step by step relates them over a sequence. -/
theorem Relates.bind {R : Session τ ρ → Session τ ρ → Prop} {a : Action τ ρ α}
    {f : α → Action τ ρ β} (htrans : ∀ s t u, R s t → R t u → R s u) (h : Relates R a)
    (hf : ∀ x, Relates R (f x)) : Relates R (a >>= f) := by
  intro s
  apply Ends.bind (h s)
  intro x t hx
  apply (hf x t).mono
  · intro _ _ ht
    exact htrans _ _ _ hx ht
  · rintro _ _ ⟨he, ht⟩
    exact ⟨he, htrans _ _ _ hx ht⟩

/-- The action leaves the stream alone. -/
abbrev Quiet (a : Action (Recorded τ) ρ α) : Prop :=
  Relates Still a

/-- The action takes records off the stream, if anything. -/
abbrev Prompt (a : Action (Recorded τ) ρ α) : Prop :=
  Relates Took a

namespace Quiet

variable {a : Action (Recorded τ) ρ α}

omit [Transport τ] in
theorem bind {f : α → Action (Recorded τ) ρ β} (h : Quiet a) (hf : ∀ x, Quiet (f x)) :
    Quiet (a >>= f) :=
  Relates.bind (fun _ _ _ => Still.trans) h hf

/-- An action that leaves the stream alone takes no more than it may. -/
theorem prompt (h : Quiet a) : Prompt a :=
  fun s => (h s).mono (fun _ _ ht => ht.took) fun _ _ ht => ⟨ht.1, ht.2.took⟩

omit [Transport τ]

theorem pure (x : α) : Quiet (Pure.pure x : Action (Recorded τ) ρ α) :=
  fun s => ends_pure (Still.refl s)

theorem fail (e : Error) : Quiet (Session.fail e : Action (Recorded τ) ρ α) :=
  fun s => ends_fail ⟨Stop.noConfusion, Still.refl s⟩

theorem current : Quiet (Session.current : Action (Recorded τ) ρ Connection) :=
  Still.refl

theorem get : Quiet (MonadState.get : Action (Recorded τ) ρ (Session (Recorded τ) ρ)) :=
  Still.refl

theorem check (r : Except Error α) : Quiet (Session.check r : Action (Recorded τ) ρ α) := by
  cases r with
  | ok x => exact pure x
  | error e => exact fail e

theorem update {f : Connection → Connection} (hreader : ∀ c, (f c).reader = c.reader)
    (hbuffer : ∀ c, (f c).handshakeBuffer = c.handshakeBuffer) :
    Quiet (Session.update f : Action (Recorded τ) ρ Unit) :=
  fun _ => ends_update ⟨rfl, .refl _, hreader _, hbuffer _⟩

theorem draw {f : ρ → α × ρ} (hf : ∀ r, RandomSource.Leads r (f r).2) :
    Quiet (Session.draw f : Action (Recorded τ) ρ α) := by
  intro s
  show Still s { s with random := (f s.random).2 }
  exact ⟨rfl, hf _, rfl, rfl⟩

theorem link : Quiet (Session.link : Action (Recorded τ) ρ LinkId) := by
  apply bind current
  intro c
  split
  · exact pure _
  · exact fail _

theorem advance (event : Event) : Quiet (Session.advance event : Action (Recorded τ) ρ Unit) :=
  bind current fun _ => bind (check _) fun _ => update (fun _ => rfl) fun _ => rfl

/-- Heeding an alert gives no result. -/
theorem heed_stops (content : Bytes) (s : Session (Recorded τ) ρ)
    {Q : α → Session (Recorded τ) ρ → Prop} :
    Ends (Session.heed content) s Q fun e t => e ≠ .unfinished ∧ Still s t := by
  refine Ends.bind_check (fun alert _ => ?_) fun _ _ => ⟨Stop.noConfusion, Still.refl s⟩
  have hstill : Still s { s with lastAlert := some alert } := ⟨rfl, .refl _, rfl, rfl⟩
  apply Ends.bind_modify
  split
  · exact ends_fail ⟨Stop.noConfusion, hstill⟩
  · exact ends_fail ⟨Stop.noConfusion, hstill⟩

theorem checkAnnounced (buffered : Bytes) :
    Quiet (Session.checkAnnounced buffered : Action (Recorded τ) ρ Unit) := by
  unfold Session.checkAnnounced
  split
  · exact pure _
  · dsimp only
    split
    · exact fail _
    · exact pure _

theorem note (message : Bytes) : Quiet (Session.note message : Action (Recorded τ) ρ Unit) :=
  update (fun _ => rfl) fun _ => rfl

theorem expect (kind : MessageType) (event : Event) :
    Quiet (Session.expect kind event : Action (Recorded τ) ρ Unit) := by
  apply bind current
  intro c
  dsimp only
  split
  · exact pure _
  · exact fail _

theorem acceptHello (hello : ServerHello) :
    Quiet (Session.acceptHello hello : Action (Recorded τ) ρ Unit) := by
  unfold Session.acceptHello
  split
  · exact fail _
  · apply bind get
    intro s
    split
    · exact fail _
    · split
      · exact fail _
      · exact update (fun _ => rfl) fun _ => rfl

theorem acceptCertificate (chain : CertificateChain) :
    Quiet (Session.acceptCertificate chain : Action (Recorded τ) ρ Unit) := by
  unfold Session.acceptCertificate
  split
  · exact fail _
  · exact bind (check _) fun _ => update (fun _ => rfl) fun _ => rfl

theorem verifyDataFor (label : String) :
    Quiet (Session.verifyDataFor label : Action (Recorded τ) ρ Bytes) :=
  bind current fun _ => check _

theorem deriveKeys (preMaster : Bytes) :
    Quiet (Session.deriveKeys preMaster : Action (Recorded τ) ρ Unit) := by
  apply bind current
  intro c
  split
  · exact fail _
  · refine bind (check _) fun master => bind (update (fun _ => rfl) fun _ => rfl) fun _ => ?_
    exact bind (check _) fun _ => bind (check _) fun _ => update (fun _ => rfl) fun _ => rfl

theorem fragmentOf (protection : Option Protection) (contentType : ContentType) (payload : Bytes) :
    Quiet (Session.fragmentOf protection contentType payload : Action (Recorded τ) ρ Bytes) := by
  unfold Session.fragmentOf
  split
  · exact pure _
  · exact bind current fun _ => bind (draw (leads_protect _ _ _)) fun _ => bind (check _) fun _ =>
      bind (update (fun _ => rfl) fun _ => rfl) fun _ => pure _

/-- A record that opens has a content no longer than its fragment. -/
theorem contentOf_gives (record : Record) (s : Session (Recorded τ) ρ) :
    Ends (contentOf record) s
      (fun content t => Still s t ∧ content.length ≤ record.fragment.length)
      (fun e t => e ≠ .unfinished ∧ Still s t) := by
  apply Ends.bind_current
  cases s.connection.readProtection with
  | none => exact ends_pure ⟨Still.refl s, Nat.le_refl _⟩
  | some p =>
    refine Ends.bind_get (Ends.bind_check (fun content hcontent => ?_) fun e _ => ?_)
    · refine Ends.bind_check (fun n _ => ?_) fun e _ => ⟨Stop.noConfusion, Still.refl s⟩
      refine Ends.bind_update (ends_pure ⟨⟨rfl, .refl _, rfl, rfl⟩, ?_⟩)
      exact Protection.length_le_of_unprotect hcontent
    · exact ⟨Stop.noConfusion, Still.refl s⟩

end Quiet

/-! ### Receiving -/

/-- The record that is received is taken off the stream; nothing is if none is received. -/
theorem receiveWire_takes (s : Session (Recorded τ) ρ) :
    Ends receiveWire s
      (fun record t => Takes [record] s t ∧ t.connection.handshakeBuffer = s.connection.handshakeBuffer)
      (fun e t => e ≠ .unfinished ∧ Takes [] s t) := by
  refine Ends.bind_link (fun id _ => ?_) fun _ => ⟨Stop.noConfusion, Takes.refl s⟩
  have hconserves := s.connection.reader.read_conserves id s.config.pollLimit s.transport
  have huses := read_uses id s.config.pollLimit s.connection.reader s.transport
  unfold Ends
  rcases hread : s.connection.reader.read id s.config.pollLimit s.transport with ⟨e | record, reader, t⟩
  · rw [hread] at hconserves huses
    obtain ⟨arrived, hreceived, -, hreader⟩ := hconserves
    simp only [hread]
    exact ⟨Stop.noConfusion, by simp, huses, .refl _, ⟨arrived, hreceived, hreader⟩, Nat.le_refl _⟩
  · rw [hread] at hconserves huses
    obtain ⟨arrived, hreceived, -, hacceptable, hreader⟩ := hconserves
    simp only [hread]
    refine ⟨⟨by simpa using hacceptable, huses, .refl _, ⟨arrived, hreceived, ?_⟩, ?_⟩, trivial⟩
    · rw [wire_singleton]
      exact hreader
    · rw [wire_singleton, Record.length_toBytes]
      exact Nat.add_le_add_left (Nat.le_add_right _ _) _

/-- A record is received with a content that is no longer than its fragment. -/
theorem receive_takes (s : Session (Recorded τ) ρ) :
    Ends receive s
      (fun r t => ∃ record, Takes [record] s t ∧ r.fragment.length ≤ record.fragment.length ∧
        t.connection.handshakeBuffer = s.connection.handshakeBuffer)
      (fun e t => e ≠ .unfinished ∧ Took s t) := by
  refine Ends.bind_mono (receiveWire_takes s) ?_ ?_
  · rintro e t ⟨he, ht⟩
    exact ⟨he, _, ht⟩
  rintro record t ⟨htakes, hbuffer⟩
  refine Ends.bind_mono (Quiet.contentOf_gives record t) ?_ ?_
  · rintro e u ⟨he, hstill⟩
    exact ⟨he, _, htakes.trans hstill.takes⟩
  rintro content u ⟨hstill, hshort⟩
  split
  · exact ends_fail ⟨Stop.noConfusion, _, htakes.trans hstill.takes⟩
  · exact ends_pure ⟨record, htakes.trans hstill.takes, hshort, hstill.handshakeBuffer.trans hbuffer⟩

/-- The change of the server's cipher is one record. -/
theorem receiveChangeCipherSpec_takes (s : Session (Recorded τ) ρ) :
    Ends receiveChangeCipherSpec s (fun _ t => ∃ record, Takes [record] s t)
      (fun e t => e ≠ .unfinished ∧ Took s t) := by
  apply Ends.bind (receive_takes s)
  rintro r t ⟨record, htakes, -⟩
  have hstill {a : Action (Recorded τ) ρ Unit} (ha : Quiet a) :
      Ends a t (fun _ u => ∃ record, Takes [record] s u) fun e u => e ≠ .unfinished ∧ Took s u :=
    (ha t).mono (fun _ _ hu => ⟨record, htakes.trans hu.takes⟩) fun _ _ hu =>
      ⟨hu.1, _, htakes.trans hu.2.takes⟩
  split
  · split
    · exact hstill (.fail _)
    · apply hstill
      apply Quiet.bind .current
      intro c
      split
      · exact .fail _
      · exact .update (fun _ => rfl) fun _ => rfl
  · exact hstill fun u => Quiet.heed_stops _ u
  · exact hstill (.fail _)

namespace Prompt

variable {a : Action (Recorded τ) ρ α}

theorem bind {f : α → Action (Recorded τ) ρ β} (h : Prompt a) (hf : ∀ x, Prompt (f x)) :
    Prompt (a >>= f) :=
  Relates.bind (fun _ _ _ => Took.trans) h hf

/-- Using the transport without receiving takes nothing off the stream. -/
theorem operate {f : Recorded τ → Except TransportError α × Recorded τ}
    (huses : ∀ t, ∃ uses, (f t).2 = afterUses uses t)
    (hreceived : ∀ t, (f t).2.received = t.received) :
    Prompt (Session.operate f : Action (Recorded τ) ρ α) := by
  intro s
  have htook : Took s { s with transport := (f s.transport).2 } := by
    refine ⟨[], by simp, huses _, .refl _, ⟨[], ?_, ?_⟩, Nat.le_refl _⟩
    · rw [List.append_nil]
      exact hreceived _
    · rw [List.append_nil]
      rfl
  unfold Ends Session.operate
  rcases hf : f s.transport with ⟨e | x, t⟩
  · rw [hf] at htook
    exact ⟨Stop.noConfusion, htook⟩
  · rw [hf] at htook
    exact htook

theorem receiveWire : Prompt (Session.receiveWire : Action (Recorded τ) ρ Record) := by
  intro s
  apply (receiveWire_takes s).mono
  · rintro record t ⟨htakes, -⟩
    exact ⟨_, htakes⟩
  · rintro e t ⟨he, htakes⟩
    exact ⟨he, _, htakes⟩

theorem receiveChangeCipherSpec :
    Prompt (Session.receiveChangeCipherSpec : Action (Recorded τ) ρ Unit) := by
  intro s
  apply (receiveChangeCipherSpec_takes s).mono
  · rintro _ t ⟨record, htakes⟩
    exact ⟨_, htakes⟩
  · exact fun _ _ h => h

theorem skipFinished : Prompt (Session.skipFinished : Action (Recorded τ) ρ Unit) := by
  apply bind receiveWire
  intro record
  apply Quiet.prompt
  refine .bind .current fun c => .bind (.check _) fun sequence => ?_
  refine .bind (.update (fun _ => rfl) fun _ => rfl) fun _ => ?_
  split
  · exact .pure _
  · exact .fail _

/-! ### Sending -/

theorem transmit (protection : Option Protection) (contentType : ContentType) (payload : Bytes) :
    Prompt (Session.transmit protection contentType payload : Action (Recorded τ) ρ Unit) := by
  apply bind Quiet.link.prompt
  intro id
  split
  · exact (Quiet.fail _).prompt
  · apply bind (Quiet.fragmentOf _ _ _).prompt
    intro fragment
    refine bind (operate (fun t => ⟨[.send id _], rfl⟩) fun t => rfl) fun accepted => ?_
    split
    · exact (Quiet.pure _).prompt
    · exact (Quiet.fail _).prompt

theorem sendMessage (kind : MessageType) (body : HandshakeBody) :
    Prompt (Session.sendMessage kind body : Action (Recorded τ) ρ Unit) :=
  bind (Quiet.note _).prompt fun _ => bind Quiet.current.prompt fun _ => transmit _ _ _

theorem sendHello (now : Clock) (host : String) :
    Prompt (Session.sendHello now host : Action (Recorded τ) ρ Unit) := by
  unfold Session.sendHello
  split
  · exact (Quiet.fail _).prompt
  · refine bind (Quiet.draw fun r => RandomSource.leads_bytes r 28).prompt fun random => ?_
    refine bind (Quiet.prompt (.update (fun _ => rfl) fun _ => rfl)) fun _ => ?_
    refine bind Quiet.get.prompt fun s => bind (sendMessage _ _) fun _ => ?_
    exact (Quiet.advance _).prompt

theorem sendChangeCipherSpec :
    Prompt (Session.sendChangeCipherSpec : Action (Recorded τ) ρ Unit) := by
  refine bind (transmit _ _ _) fun _ => Quiet.prompt ?_
  exact .bind (.update (fun _ => rfl) fun _ => rfl) fun _ => .advance _

theorem sendFinished : Prompt (Session.sendFinished : Action (Recorded τ) ρ Unit) :=
  bind (Quiet.verifyDataFor _).prompt fun _ => bind (sendMessage _ _) fun _ =>
    (Quiet.advance _).prompt

end Prompt

end TlsClient.Session
