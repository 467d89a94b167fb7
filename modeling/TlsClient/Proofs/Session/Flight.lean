import TlsClient.Proofs.Session.Hello
import TlsClient.Proofs.Session.Reassembly
import TlsClient.Proofs.Sha256.Stream

namespace TlsClient.Session

open Network

variable {τ ρ : Type}

structure Agreed where
  state : State
  suite : Option CipherSuite
  serverRandom : HelloRandom
  serverKey : Option PublicKey
  transcript : Sha256

def agreed (s : Session τ ρ) : Agreed where
  state := s.connection.state
  suite := s.connection.suite
  serverRandom := s.connection.serverRandom
  serverKey := s.connection.serverKey
  transcript := s.connection.transcript

/-- `t` is `s` with something more settled, and nothing else differs. -/
def Settles (s t : Session (Recorded τ) ρ) : Prop :=
  ∃ state suite serverRandom sessionId serverKey transcript,
    t = { s with connection := { s.connection with
      state, suite, serverRandom, sessionId, serverKey, transcript } }

/-- `t` is `s` later in the first half of a handshake: nothing was sent and nothing is settled that
the server's hello and certificate do not settle. -/
def Listens (s t : Session (Recorded τ) ρ) : Prop :=
  ∃ inner received lastAlert reader sequence buffer state suite serverRandom sessionId serverKey
      transcript,
    t = { s with
      transport := ⟨inner, s.transport.sent, received⟩
      lastAlert
      connection := { s.connection with
        reader, serverSequence := sequence, handshakeBuffer := buffer, state, suite, serverRandom,
        sessionId, serverKey, transcript } }

/-- From `s` to `t` the messages of `ms` were heard, in the handshake records of `xs`. -/
structure Hears (s t : Session (Recorded τ) ρ) (xs : List (Record × Bytes)) (ms : List Bytes) :
    Prop where
  listens : Listens s t
  intake : Intake s t xs
  all : AllOf .handshake xs
  framed : ∀ m ∈ ms, Handshake.IsFramed m
  bytes : s.connection.handshakeBuffer ++ contents xs =
    ms.flatten ++ t.connection.handshakeBuffer

section
variable {s t u : Session (Recorded τ) ρ} {xs ys : List (Record × Bytes)} {ms ns : List Bytes}

/-- Receiving settles nothing about a connection. -/
theorem Receives.listens (h : Receives s t) (hp : t.connection.pending = s.connection.pending) :
    Listens s t := by
  obtain ⟨inner, received, lastAlert, reader, sequence, buffer, pending, rfl⟩ := h
  have hpending : pending = s.connection.pending := hp
  subst hpending
  exact ⟨inner, received, lastAlert, reader, sequence, buffer, _, _, _, _, _, _, rfl⟩

theorem Receives.sent (h : Receives s t) : t.transport.sent = s.transport.sent := by
  obtain ⟨_, _, _, _, _, _, _, rfl⟩ := h
  rfl

theorem Receives.agreed (h : Receives s t) : t.agreed = s.agreed := by
  obtain ⟨_, _, _, _, _, _, _, rfl⟩ := h
  rfl

theorem Listens.sent (h : Listens s t) : t.transport.sent = s.transport.sent := by
  obtain ⟨_, _, _, _, _, _, _, _, _, _, _, _, rfl⟩ := h
  rfl

theorem Listens.config (h : Listens s t) : t.config = s.config := by
  obtain ⟨_, _, _, _, _, _, _, _, _, _, _, _, rfl⟩ := h
  rfl

theorem Listens.trans (h : Listens s t) (h' : Listens t u) : Listens s u := by
  obtain ⟨_, _, _, _, _, _, _, _, _, _, _, _, rfl⟩ := h
  obtain ⟨inner, received, lastAlert, reader, sequence, buffer, state, suite, serverRandom, sessionId,
    serverKey, transcript, rfl⟩ := h'
  exact ⟨inner, received, lastAlert, reader, sequence, buffer, state, suite, serverRandom, sessionId,
    serverKey, transcript, rfl⟩

/-- Messages are heard one after the other. -/
theorem Hears.trans (h : Hears s t xs ms) (h' : Hears t u ys ns) :
    Hears s u (xs ++ ys) (ms ++ ns) := by
  -- What the first messages have left in the buffer belongs to the next ones.
  refine ⟨h.listens.trans h'.listens, h.intake.trans h'.intake, ?_, ?_, ?_⟩
  · exact List.forall_mem_append.2 ⟨h.all, h'.all⟩
  · exact List.forall_mem_append.2 ⟨h.framed, h'.framed⟩
  · calc s.connection.handshakeBuffer ++ contents (xs ++ ys)
        = (s.connection.handshakeBuffer ++ contents xs) ++ contents ys := by
          rw [contents_append, List.append_assoc]
      _ = ms.flatten ++ (t.connection.handshakeBuffer ++ contents ys) := by
          rw [h.bytes, List.append_assoc]
      _ = (ms ++ ns).flatten ++ u.connection.handshakeBuffer := by
          rw [h'.bytes, List.flatten_append, List.append_assoc]

theorem Settles.listens (h : Settles s t) : Listens s t := by
  obtain ⟨state, suite, serverRandom, sessionId, serverKey, transcript, rfl⟩ := h
  exact ⟨_, _, _, _, _, _, state, suite, serverRandom, sessionId, serverKey, transcript, rfl⟩

/-- Settling something about a connection hears no further message. -/
theorem Hears.settles (h : Hears s t xs ms) (hu : Settles t u) : Hears s u xs ms := by
  have hlistens := h.listens.trans hu.listens
  obtain ⟨state, suite, serverRandom, sessionId, serverKey, transcript, rfl⟩ := hu
  refine ⟨hlistens, ?_, h.all, h.framed, h.bytes⟩
  exact List.append_nil xs ▸ h.intake.trans (Intake.of_same rfl rfl rfl rfl rfl)

end

/-! ### One message -/

def IsHello (suite : Option CipherSuite) (m : Bytes) (hello : ServerHello) : Prop :=
  ∃ header, Handshake.parse suite m = .ok (⟨header, .serverHello hello⟩, [])

def IsCertificate (suite : Option CipherSuite) (m : Bytes) (key : PublicKey) : Prop :=
  ∃ header chain leaf, Handshake.parse suite m = .ok (⟨header, .certificate chain⟩, []) ∧
    chain.leaf? = some leaf ∧ Der.certificateKey leaf = .ok key

structure AcceptsHello (s t : Session (Recorded τ) ρ) (m : Bytes) (hello : ServerHello) : Prop where
  isHello : IsHello s.connection.suite m hello
  version : hello.version = .tls12
  suite : hello.suite ∈ s.config.suites
  compression : hello.compression = .null
  moves : s.connection.state.next? .serverHello = some t.connection.state
  agreed : t.agreed = { s.agreed with
    state := t.connection.state
    suite := some hello.suite
    serverRandom := hello.random
    transcript := s.connection.transcript.update m }

structure AcceptsCertificate (s t : Session (Recorded τ) ρ) (m : Bytes) (key : PublicKey) :
    Prop where
  isCertificate : IsCertificate s.connection.suite m key
  moves : s.connection.state.next? .certificate = some t.connection.state
  agreed : t.agreed = { s.agreed with
    state := t.connection.state
    serverKey := some key
    transcript := s.connection.transcript.update m }

structure AcceptsDone (s t : Session (Recorded τ) ρ) (m : Bytes) : Prop where
  message : m = [14, 0, 0, 0]
  moves : s.connection.state.next? .serverHelloDone = some t.connection.state
  agreed : t.agreed = { s.agreed with
    state := t.connection.state
    transcript := s.connection.transcript.update m }

/-! Each of the three messages is accepted in one state only. -/

section
variable {s t : Session (Recorded τ) ρ} {m : Bytes}

/-- A hello is accepted as the first of the three messages only. -/
theorem AcceptsHello.states {hello : ServerHello} (h : AcceptsHello s t m hello) :
    s.connection.state = .clientHelloSent ∧ t.connection.state = .serverHelloReceived :=
  State.eq_of_next? (by decide) (by decide) h.moves rfl

/-- A certificate is accepted behind the hello only. -/
theorem AcceptsCertificate.states {key : PublicKey} (h : AcceptsCertificate s t m key) :
    s.connection.state = .serverHelloReceived ∧ t.connection.state = .certificateReceived :=
  State.eq_of_next? (by decide) (by decide) h.moves rfl

/-- The end of the hello is accepted behind the certificate only. -/
theorem AcceptsDone.states (h : AcceptsDone s t m) :
    s.connection.state = .certificateReceived ∧
      t.connection.state = .serverHelloDoneReceived :=
  State.eq_of_next? (by decide) (by decide) h.moves rfl

end

theorem expect_ends (kind : MessageType) (event : Event) (s : Session τ ρ) :
    Ends (expect kind event) s (fun _ t => t = s) (fun _ t => t = s) := by
  apply Ends.bind_current
  dsimp only
  split
  · exact ends_pure rfl
  · exact ends_fail rfl

/-- A hello is accepted if it selects what was offered, and otherwise changes nothing. -/
theorem acceptHello_ends (hello : ServerHello) (s : Session (Recorded τ) ρ) :
    Ends (acceptHello hello) s
      (fun _ t => hello.version = .tls12 ∧ hello.suite ∈ s.config.suites ∧
        hello.compression = .null ∧ t = { s with connection := { s.connection with
          serverRandom := hello.random
          sessionId := hello.sessionId
          suite := some hello.suite } })
      (fun _ t => t = s) := by
  unfold acceptHello
  by_cases hversion : hello.version = .tls12
  · rw [if_neg (not_not_intro hversion)]
    apply Ends.bind_get
    by_cases hsuite : hello.suite ∈ s.config.suites
    · rw [if_neg (not_not_intro hsuite)]
      by_cases hcompression : hello.compression = .null
      · rw [if_neg (not_not_intro hcompression)]
        exact ends_update ⟨hversion, hsuite, hcompression, rfl⟩
      · rw [if_pos hcompression]
        exact ends_fail rfl
    · rw [if_pos hsuite]
      exact ends_fail rfl
  · rw [if_pos hversion]
    exact ends_fail rfl

/-- A certificate is accepted if there is a key in the first one, and otherwise changes nothing. -/
theorem acceptCertificate_ends (chain : CertificateChain) (s : Session (Recorded τ) ρ) :
    Ends (acceptCertificate chain) s
      (fun _ t => ∃ leaf key, chain.leaf? = some leaf ∧ Der.certificateKey leaf = .ok key ∧
        t = { s with connection := { s.connection with serverKey := some key } })
      (fun _ t => t = s) := by
  unfold acceptCertificate
  split
  · exact ends_fail rfl
  · rename_i leaf hleaf
    refine Ends.bind_check (fun key hkey => ?_) fun _ _ => rfl
    exact ends_update ⟨leaf, key, hleaf, hkey, rfl⟩

variable [Transport τ]

/-- Everything that a turn of the loop can come to: a request to start over, which settles nothing,
or one of the three messages where the state machine expects it. -/
theorem receiveFlight_succ_ends (fuel : Nat) (s : Session (Recorded τ) ρ)
    {R : Unit → Session (Recorded τ) ρ → Prop} {E : Stop → Session (Recorded τ) ρ → Prop}
    (hstop : ∀ e t, t.transport.sent = s.transport.sent → E e t)
    (hrequest : ∀ t xs, Hears s t xs [[0, 0, 0, 0]] → t.agreed = s.agreed →
      Ends (receiveFlight fuel) t R E)
    (hhello : ∀ t xs m hello, Hears s t xs [m] → AcceptsHello s t m hello →
      Ends (receiveFlight fuel) t R E)
    (hcertificate : ∀ t xs m key, Hears s t xs [m] → AcceptsCertificate s t m key →
      Ends (receiveFlight fuel) t R E)
    (hdone : ∀ t xs m, Hears s t xs [m] → AcceptsDone s t m → R () t) :
    Ends (receiveFlight (fuel + 1)) s R E := by
  refine Ends.bind_mono (receiveMessage_ends fuel s) ?_ ?_
  · intro e t h
    exact hstop e t h.sent
  intro m t h
  obtain ⟨hreceives, hpending, hframed, xs, hintake, hall, hbytes⟩ := h
  have hlistens := hreceives.listens hpending
  have hsent := hlistens.sent
  have hconfig := hlistens.config
  have hagreed := hreceives.agreed
  have hsuite : t.connection.suite = s.connection.suite := congrArg Agreed.suite hagreed
  have hears : Hears s t xs [m] := by
    refine ⟨hlistens, hintake, hall, ?_, by simpa using hbytes⟩
    intro m' hm'
    rwa [List.mem_singleton.1 hm']
  refine Ends.bind_current (Ends.bind_check ?_ fun e _ => hstop _ t hsent)
  intro message hparse
  -- A complete message is read to its end, so no byte of it goes unaccounted for.
  obtain ⟨body, -, -, -, hread⟩ := Handshake.parse_framed hframed hparse
  rw [hsuite] at hread
  dsimp only
  by_cases hkind : message.header.kind = .helloRequest
  · rw [if_pos hkind]
    exact hrequest t xs (Handshake.eq_helloRequest hframed hparse hkind ▸ hears) hagreed
  · rw [if_neg hkind]
    apply Ends.bind_update
    have hstate : t.connection.state = s.connection.state := congrArg Agreed.state hagreed
    have htranscript : t.connection.transcript = s.connection.transcript :=
      congrArg Agreed.transcript hagreed
    obtain ⟨header, body⟩ := message
    -- The message enters the transcript before it is judged.
    cases body with
    | serverHello hello =>
      refine Ends.bind_mono (expect_ends _ _ _) ?_ ?_
      · intro e u h
        exact hstop e u (h ▸ hsent)
      intro _ u h
      subst h
      refine Ends.bind_mono (acceptHello_ends hello _) ?_ ?_
      · intro e u h
        exact hstop e u (h ▸ hsent)
      intro _ u h
      obtain ⟨hversion, hoffered, hcompression, rfl⟩ := h
      refine Ends.bind_advance (fun state hnext => ?_) fun e => hstop _ _ hsent
      refine hhello _ xs m hello (hears.settles ⟨_, _, _, _, _, _, rfl⟩) ?_
      refine ⟨⟨header, hread⟩, hversion, hconfig ▸ hoffered, hcompression, hstate ▸ hnext, ?_⟩
      rw [← hagreed, ← htranscript]
      rfl
    | certificate chain =>
      refine Ends.bind_mono (expect_ends _ _ _) ?_ ?_
      · intro e u h
        exact hstop e u (h ▸ hsent)
      intro _ u h
      subst h
      refine Ends.bind_mono (acceptCertificate_ends chain _) ?_ ?_
      · intro e u h
        exact hstop e u (h ▸ hsent)
      intro _ u h
      obtain ⟨leaf, key, hleaf, hkey, rfl⟩ := h
      refine Ends.bind_advance (fun state hnext => ?_) fun e => hstop _ _ hsent
      refine hcertificate _ xs m key (hears.settles ⟨_, _, _, _, _, _, rfl⟩) ?_
      refine ⟨⟨header, chain, leaf, hread, hleaf, hkey⟩, hstate ▸ hnext, ?_⟩
      rw [← hagreed, ← htranscript]
      rfl
    | serverHelloDone =>
      refine Ends.bind_mono (expect_ends _ _ _) ?_ ?_
      · intro e u h
        exact hstop e u (h ▸ hsent)
      intro _ u h
      subst h
      refine ends_advance (fun state hnext => ?_) fun e => hstop _ _ hsent
      refine hdone _ xs m (hears.settles ⟨_, _, _, _, _, _, rfl⟩) ?_
      refine ⟨Handshake.eq_serverHelloDone hframed hparse rfl, hstate ▸ hnext, ?_⟩
      rw [← hagreed, ← htranscript]
      rfl
    -- No other message has a place in the flight, whatever the state is.
    | _ => exact Ends.bind_current (ends_fail (hstop _ _ hsent))

/-! ### The three messages in order -/

def requests (n : Nat) : List Bytes :=
  List.replicate n [0, 0, 0, 0]

/-- After the certificate only the end of the hello is left. -/
theorem receiveFlight_done_ends (fuel : Nat) (s : Session (Recorded τ) ρ)
    (hs : s.connection.state = .certificateReceived) :
    Ends (receiveFlight fuel) s
      (fun _ t => ∃ xs n, Hears s t xs (requests n ++ [[14, 0, 0, 0]]) ∧
        t.agreed = { s.agreed with
          state := .serverHelloDoneReceived
          transcript := s.connection.transcript.update [14, 0, 0, 0] })
      (fun _ t => t.transport.sent = s.transport.sent) := by
  -- The induction takes one request to start over off the front each time.
  induction fuel generalizing s with
  | zero => exact ends_throw rfl
  | succ fuel ih =>
    apply receiveFlight_succ_ends fuel s
    · intro e t h
      exact h
    · intro u xs hears hagreed
      have hu : u.connection.state = .certificateReceived :=
        (congrArg Agreed.state hagreed).trans hs
      have htranscript : u.connection.transcript = s.connection.transcript :=
        congrArg Agreed.transcript hagreed
      refine (ih u hu).mono ?_ fun e t h => h.trans hears.listens.sent
      intro _ t h
      obtain ⟨ys, n, hmore, hsettled⟩ := h
      refine ⟨xs ++ ys, n + 1, hears.trans hmore, ?_⟩
      rw [hsettled, hagreed, htranscript]
    -- A second hello or certificate is not accepted in this state.
    · intro t xs m hello _ haccepts
      cases hs.symm.trans haccepts.states.1
    · intro t xs m key _ haccepts
      cases hs.symm.trans haccepts.states.1
    · intro t xs m hears haccepts
      have hm := haccepts.message
      have hsettled := haccepts.agreed
      rw [haccepts.states.2, hm] at hsettled
      subst hm
      exact ⟨xs, 0, hears, hsettled⟩

/-- After the hello the certificate is next, and then the end of the hello. -/
theorem receiveFlight_certificate_ends (fuel : Nat) (s : Session (Recorded τ) ρ)
    (hs : s.connection.state = .serverHelloReceived) :
    Ends (receiveFlight fuel) s
      (fun _ t => ∃ xs certificate key i j,
        Hears s t xs (requests i ++ certificate :: (requests j ++ [[14, 0, 0, 0]])) ∧
        IsCertificate s.connection.suite certificate key ∧
        t.agreed = { s.agreed with
          state := .serverHelloDoneReceived
          serverKey := some key
          transcript := s.connection.transcript.update (certificate ++ [14, 0, 0, 0]) })
      (fun _ t => t.transport.sent = s.transport.sent) := by
  induction fuel generalizing s with
  | zero => exact ends_throw rfl
  | succ fuel ih =>
    apply receiveFlight_succ_ends fuel s
    · intro e t h
      exact h
    · intro u xs hears hagreed
      have hu : u.connection.state = .serverHelloReceived :=
        (congrArg Agreed.state hagreed).trans hs
      have htranscript : u.connection.transcript = s.connection.transcript :=
        congrArg Agreed.transcript hagreed
      have hsuite : u.connection.suite = s.connection.suite := congrArg Agreed.suite hagreed
      refine (ih u hu).mono ?_ fun e t h => h.trans hears.listens.sent
      intro _ t h
      obtain ⟨ys, certificate, key, i, j, hmore, hkey, hsettled⟩ := h
      refine ⟨xs ++ ys, certificate, key, i + 1, j, hears.trans hmore, hsuite ▸ hkey, ?_⟩
      rw [hsettled, hagreed, htranscript]
    · intro t xs m hello _ haccepts
      cases hs.symm.trans haccepts.states.1
    · intro u xs m key hears haccepts
      have hagreed := haccepts.agreed
      have htranscript : u.connection.transcript = s.connection.transcript.update m :=
        congrArg Agreed.transcript hagreed
      refine (receiveFlight_done_ends fuel u haccepts.states.2).mono ?_
        fun e t h => h.trans hears.listens.sent
      intro _ t h
      obtain ⟨ys, j, hmore, hsettled⟩ := h
      refine ⟨xs ++ ys, m, key, 0, j, hears.trans hmore, haccepts.isCertificate, ?_⟩
      rw [hsettled, hagreed, htranscript, Sha256.update_update]
    · intro t xs m hears haccepts
      cases hs.symm.trans haccepts.states.1

/-- What the server said in answer to the client's hello: its hello, its certificate and the end of
its hello in this order, with requests to start over before each of them. -/
structure Answer where
  hello : Bytes
  certificate : Bytes
  early : Nat
  middle : Nat
  late : Nat

namespace Answer

def messages (a : Answer) : List Bytes :=
  requests a.early ++ a.hello ::
    (requests a.middle ++ a.certificate :: (requests a.late ++ [[14, 0, 0, 0]]))

def transcript (a : Answer) : Bytes :=
  a.hello ++ a.certificate ++ [14, 0, 0, 0]

end Answer

/-- The whole answer is heard, it takes up the client's offer and names the server's key. -/
theorem receiveFlight_ends (fuel : Nat) (s : Session (Recorded τ) ρ)
    (hs : s.connection.state = .clientHelloSent) :
    Ends (receiveFlight fuel) s
      (fun _ t => ∃ (xs : List (Record × Bytes)) (answer : Answer) (hello : ServerHello)
          (key : PublicKey),
        Hears s t xs answer.messages ∧
        IsHello s.connection.suite answer.hello hello ∧
        hello.version = .tls12 ∧ hello.suite ∈ s.config.suites ∧ hello.compression = .null ∧
        IsCertificate (some hello.suite) answer.certificate key ∧
        t.agreed = {
          state := .serverHelloDoneReceived
          suite := some hello.suite
          serverRandom := hello.random
          serverKey := some key
          transcript := s.connection.transcript.update answer.transcript })
      (fun _ t => t.transport.sent = s.transport.sent) := by
  induction fuel generalizing s with
  | zero => exact ends_throw rfl
  | succ fuel ih =>
    apply receiveFlight_succ_ends fuel s
    · intro e t h
      exact h
    · intro u xs hears hagreed
      have hu : u.connection.state = .clientHelloSent :=
        (congrArg Agreed.state hagreed).trans hs
      have htranscript : u.connection.transcript = s.connection.transcript :=
        congrArg Agreed.transcript hagreed
      have hsuite : u.connection.suite = s.connection.suite := congrArg Agreed.suite hagreed
      have hconfig := hears.listens.config
      refine (ih u hu).mono ?_ fun e t h => h.trans hears.listens.sent
      intro _ t h
      obtain ⟨ys, answer, hello, key, hmore, hhello, hversion, hoffered, hcompression, hkey,
        hsettled⟩ := h
      refine ⟨xs ++ ys, { answer with early := answer.early + 1 }, hello, key, hears.trans hmore,
        hsuite ▸ hhello, hversion, hconfig ▸ hoffered, hcompression, hkey, ?_⟩
      rw [hsettled, htranscript]
      rfl
    · intro u xs m hello hears haccepts
      have hagreed := haccepts.agreed
      have htranscript : u.connection.transcript = s.connection.transcript.update m :=
        congrArg Agreed.transcript hagreed
      have hsuite : u.connection.suite = some hello.suite := congrArg Agreed.suite hagreed
      refine (receiveFlight_certificate_ends fuel u haccepts.states.2).mono ?_
        fun e t h => h.trans hears.listens.sent
      intro _ t h
      obtain ⟨ys, certificate, key, i, j, hmore, hkey, hsettled⟩ := h
      refine ⟨xs ++ ys, ⟨m, certificate, 0, i, j⟩, hello, key, hears.trans hmore,
        haccepts.isHello, haccepts.version, haccepts.suite, haccepts.compression, hsuite ▸ hkey, ?_⟩
      rw [hsettled, hagreed, htranscript, Sha256.update_update, ← List.append_assoc]
      rfl
    · intro t xs m key _ haccepts
      cases hs.symm.trans haccepts.states.1
    · intro t xs m hears haccepts
      cases hs.symm.trans haccepts.states.1

end TlsClient.Session
