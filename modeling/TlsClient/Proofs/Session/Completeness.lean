import TlsClient.Proofs.Session.Completion
import TlsClient.Proofs.Session.Direct

/-!
A handshake with a server that does its part comes to its end. Whatever the client is configured
with, and however the server spreads its flight over records and the transport these over pieces, the
client is established, and both ends have the same secrets.

A handshake record ought not to be empty (RFC 5246, section 6.2.1). Inside of the flight it makes no
difference, but one that comes after the last message is in the place of the change of the cipher,
and the client refuses it.
-/

namespace TlsClient.Session

open Network Handshake

variable {τ ρ σ : Type} [Transport τ] [RandomSource ρ] [RandomSource σ]
variable {id : LinkId} {polls : Nat} {I : τ → Bytes → Bytes → Prop}
variable {s t : Session τ ρ} {p : Responder σ}

/-! ### Up to the end of the server's hello -/

/-- The session `t` has sent its hello and has received the server's flight. -/
structure Answered (p : Responder σ) (id : LinkId) (I : τ → Bytes → Bytes → Prop)
    (t : Session τ ρ) (hello : Bytes) : Prop where
  attached : Attached id t.config.pollLimit I t (wire [inClear .handshake hello])
    (wire p.flight.needed)
  state : t.connection.state = .serverHelloDoneReceived
  suite : t.connection.suite = some p.flight.hello.suite
  serverKey : t.connection.serverKey = some p.flight.key
  serverRandom : t.connection.serverRandom = p.flight.hello.random
  clientRandom : (hello.drop 6).take 32 = t.connection.clientRandom.toBytes
  transcript : t.connection.transcript = Sha256.empty.update (hello ++ p.flight.answer.transcript)
  length_le : hello.length ≤ Record.maxPlaintext
  writeProtection : t.connection.writeProtection = none
  readProtection : t.connection.readProtection = none
  handshakeBuffer : t.connection.handshakeBuffer = []

/-- The flight is the answer to any hello. -/
theorem answer_hello (p : Responder σ) {r : Record} (hr : r.Acceptable) :
    p.answer (wire [r]) = wire p.flight.records :=
  p.answer_wire (List.forall_mem_singleton.2 hr)

def Responder.patience (p : Responder σ) : Nat :=
  p.flight.records.length + p.flight.early + p.flight.middle + p.flight.late + 4

/-- A client gets through the first half with a server that answers as a responder does. -/
theorem exists_answered (hs : s.connection = { Connection.fresh with link := some id })
    (hc : Carries id s.config.pollLimit p.answer I) (hI : I s.transport [] [])
    (hsuite : p.flight.hello.suite ∈ s.config.suites) (now : Clock) {host : String}
    (hhost : host.utf8ByteSize ≤ hostLimit) {fuel : Nat} (hfuel : p.patience ≤ fuel) :
    ∃ u t hello, sendHello now host s = .ok () u ∧ receiveFlight fuel u = .ok () t ∧
      Answered p id I t hello ∧ t.config = s.config ∧
      t.random = (HelloRandom.draw now s.random).2 := by
  have hattached : Attached id s.config.pollLimit I s [] [] := by
    refine ⟨by rw [hs], rfl, ?_⟩
    rw [hs]
    exact hI
  have hclear : s.connection.writeProtection = none ∧ s.connection.readProtection = none := by
    rw [hs]
    exact ⟨rfl, rfl⟩
  have hstart : s.connection.state = .init ∧ s.connection.handshakeBuffer = [] ∧
      s.connection.transcript = .empty := by
    rw [hs]
    exact ⟨rfl, rfl, rfl⟩
  obtain ⟨transport, hsend, hsent⟩ :=
    sendHello_succeeds hc hattached hstart.1 hclear.1 now hhost
  generalize hhello : helloMessage s.config (HelloRandom.draw now s.random).1 host = hello at hsent
  have hshort : hello.length ≤ Record.maxPlaintext := hhello ▸ length_helloMessage_le _ _ hhost
  have hanswer : p.answer (wire [inClear .handshake hello]) = wire p.flight.records :=
    answer_hello p (inClear_acceptable hshort)
  rw [List.nil_append, ← wire_singleton, ← wire_nil] at hsent
  -- All records of the flight are on their way once the hello was heard.
  have hneeded : wire ([] ++ p.flight.needed) <+: p.answer (wire [inClear .handshake hello]) := by
    rw [hanswer, ← p.flight.needed_append_idle, wire_append p.flight.needed]
    exact List.prefix_append _ _
  obtain ⟨transport', reader, hbrings, hcarried⟩ :=
    brings_of_plain hc hsent nofun p.flight.plain_needed hneeded hclear.2
  have hahead : Ahead (fun transport reader => I transport (wire [inClear .handshake hello])
      (wire p.flight.needed ++ reader.buffer)) ((s.greeting now host).carrying transport)
      (p.flight.needed.map Record.fragment) p.flight.answer.messages := by
    refine ⟨⟨_, hbrings, hcarried.carried⟩, ?_, ?_, p.flight.getLast?_needed⟩
    · change s.connection.handshakeBuffer ++ _ = _
      rw [hstart.2.1]
      exact p.flight.flatten_needed
    · change Manageable s.connection.handshakeBuffer
      rw [hstart.2.1]
      exact manageable_nil
  have hfuel' : (p.flight.needed.map Record.fragment).length + p.flight.early + p.flight.middle +
      p.flight.late + 3 < fuel := by
    have hle : p.flight.needed.length ≤ p.flight.records.length :=
      (List.rdropWhile_prefix _ _).length_le
    rw [Responder.patience] at hfuel
    rw [List.length_map]
    omega
  obtain ⟨transport'', reader'', hflight, hP⟩ :=
    receiveFlight_succeeds hahead hfuel' hclear.2 rfl hsuite
  refine ⟨_, _, hello, hsend, hflight, ?_, rfl, rfl⟩
  constructor
  case attached => exact ⟨hattached.link, rfl, hP⟩
  case state => rfl
  case suite => rfl
  case serverKey => rfl
  case serverRandom => rfl
  case clientRandom =>
    rw [← hhello]
    exact helloMessage_random _ _ _
  case transcript =>
    change (s.connection.transcript.update _).update _ = _
    rw [hstart.2.2, Sha256.update_update, hhello]
  case length_le => exact hshort
  case writeProtection => exact hclear.1
  case readProtection => exact hclear.2
  case handshakeBuffer => rfl

/-! ### Up to the client's Finished message -/

/-- The session `t` has sent the records of `c`, and all that is missing is the server's answer to
its Finished message, which is right. -/
structure Spoke (p : Responder σ) (id : LinkId) (I : τ → Bytes → Bytes → Prop) (t : Session τ ρ)
    (c : Spoken) (secrets : Secrets) (expected : Bytes) : Prop where
  attached : Attached id t.config.pollLimit I t (wire c.records) (wire p.flight.needed)
  acceptable : ∀ r ∈ c.records, r.Acceptable
  derived : p.secrets c = .ok secrets
  verifyData : Prf.expand secrets.master "client finished" (Sha256.hash (p.transcript c)) 12 =
    .ok expected
  change : c.change = inClear .changeCipherSpec [1]
  finished : secrets.client.unprotect ⟨0, .handshake, .tls12⟩ c.finished.fragment true =
    .ok (finishedMessage expected)
  state : t.connection.state = .finishedSent
  suite : t.connection.suite = some p.flight.hello.suite
  serverKey : t.connection.serverKey = some p.flight.key
  masterSecret : t.connection.masterSecret = secrets.master
  transcript : t.connection.transcript =
    Sha256.empty.update (p.transcript c ++ finishedMessage expected)
  clientSequence : t.connection.clientSequence = 1
  writeProtection : t.connection.writeProtection = some secrets.client
  pendingReadProtection : t.connection.pendingReadProtection = some secrets.server
  readProtection : t.connection.readProtection = none
  handshakeBuffer : t.connection.handshakeBuffer = []

/-- Then it gets through its own part of the second half. -/
theorem exists_spoke {hello : Bytes} (h : Answered p id I t hello)
    (hc : Carries id t.config.pollLimit p.answer I)
    (hsuite : p.flight.hello.suite.supported = true) {fuel : Nat} {encrypted : Bytes} {random : ρ}
    (hencrypt : p.flight.key.encrypt fuel (preMasterOf t.random)
      (RandomSource.fill t.random preMasterRandomLength).2 = (.ok encrypted, random))
    (hopens : PrivateKey.messageOf (p.secret.recover encrypted) = preMasterOf t.random)
    (hshort : (exchangeMessage encrypted).length ≤ Record.maxPlaintext) :
    ∃ u c secrets expected, speak fuel t = .ok () u ∧ Spoke p id I u c secrets expected ∧
      u.config = t.config := by
  obtain ⟨transport, hexchange, hattached⟩ := sendKeyExchange_succeeds hc h.attached h.state
    h.writeProtection h.serverKey hencrypt hshort
  -- Both ends come to the same secrets.
  obtain ⟨master, block, keys, hmaster, hblock, hkeys, hderive⟩ := Secrets.derive_eq_ok hsuite
    (preMasterOf t.random) t.connection.clientRandom.toBytes p.flight.hello.random.toBytes
  rw [← h.serverRandom] at hmaster hblock
  have hkeyed := deriveKeys_succeeds (s := (t.exchanging encrypted random).carrying transport)
    h.suite hmaster hblock hkeys
  have hattached' : Attached id t.config.pollLimit I
      (((t.exchanging encrypted random).carrying transport).keying p.flight.hello.suite keys master)
      _ _ := ⟨hattached.link, hattached.polls, hattached.carried⟩
  obtain ⟨transport', hchange, hattached⟩ := sendChangeCipherSpec_succeeds hc hattached' rfl
  -- The client's Finished message is about what the server has said and heard.
  have htranscript : t.connection.transcript.update (exchangeMessage encrypted) =
      Sha256.empty.update (hello ++ p.flight.answer.transcript ++ exchangeMessage encrypted) := by
    rw [h.transcript, Sha256.update_update]
  obtain ⟨expected, hexpected, hlength⟩ := Prf.expand_eq_ok master "client finished"
    (Sha256.hash (hello ++ p.flight.answer.transcript ++ exchangeMessage encrypted))
    (show 12 ≤ Prf.outputLimit by decide)
  have hexpected' : Prf.verifyData master "client finished"
      (t.connection.transcript.update (exchangeMessage encrypted)).finish = .ok expected := by
    rw [htranscript]
    exact hexpected
  have hshort' : (finishedMessage expected).length ≤ Record.maxPlaintext := by
    rw [finishedMessage_length hlength]
    decide
  obtain ⟨transport'', random', hfinished, hattached'⟩ :=
    sendFinished_succeeds hc hattached rfl rfl rfl hexpected' hshort'
  let client := Protection.ofKeys p.flight.hello.suite keys .client
  let c : Spoken := {
    hello := inClear .handshake hello
    exchange := inClear .handshake (exchangeMessage encrypted)
    change := inClear .changeCipherSpec [1]
    finished := lastRecord client (finishedMessage expected) random }
  refine ⟨_, c, ⟨master, client, Protection.ofKeys p.flight.hello.suite keys .server⟩, expected,
    (bind_of_ok hexchange).trans ((bind_of_ok hkeyed).trans ((bind_of_ok hchange).trans hfinished)),
    ?_, rfl⟩
  constructor
  case attached =>
    refine ⟨hattached'.link, rfl, ?_⟩
    have hheard : wire c.records = wire [inClear .handshake hello] ++
        (inClear .handshake (exchangeMessage encrypted)).toBytes ++
        (inClear .changeCipherSpec [1]).toBytes ++ c.finished.toBytes := by
      simp [wire, Spoken.records, c]
    rw [hheard]
    exact hattached'.carried
  case acceptable =>
    have hfirst := inClear_acceptable h.length_le
    have hsecond := inClear_acceptable hshort
    have hlast := lastRecord_acceptable client hshort' random
    intro r hr
    simp only [Spoken.records, List.mem_cons, List.not_mem_nil, or_false] at hr
    rcases hr with rfl | rfl | rfl | rfl
    · exact hfirst
    · exact hsecond
    · exact change_acceptable
    · exact hlast
  case derived =>
    change Secrets.derive _ (PrivateKey.messageOf (p.secret.recover
      ((exchangeMessage encrypted).drop 6))) ((hello.drop 6).take 32) _ = _
    rw [exchangeMessage_encrypted, hopens, h.clientRandom]
    exact hderive
  case verifyData => exact hexpected
  case change => rfl
  case finished => exact Protection.unprotect_protect client ⟨0, .handshake, .tls12⟩ _ random true
  case transcript =>
    change (t.connection.transcript.update (exchangeMessage encrypted)).update _ = _
    rw [htranscript, Sha256.update_update]
    rfl
  case suite => exact h.suite
  case serverKey => exact h.serverKey
  case readProtection => exact h.readProtection
  case handshakeBuffer => exact h.handshakeBuffer
  all_goals rfl

/-! ### Up to the end -/

/-- The session `t` is established after it has sent the records of `c`, and the server has answered
all of them: nothing of the answer is missing, and both ends have the same secrets in use. -/
structure Concluded (p : Responder σ) (I : τ → Bytes → Bytes → Prop) (t : Session τ ρ)
    (c : Spoken) : Prop where
  state : t.connection.state = .established
  suite : t.connection.suite = some p.flight.hello.suite
  serverKey : t.connection.serverKey = some p.flight.key
  secrets : ∃ secrets, p.secrets c = .ok secrets ∧ t.connection.masterSecret = secrets.master ∧
    t.connection.writeProtection = some secrets.client ∧
    t.connection.readProtection = some secrets.server
  clientSequence : t.connection.clientSequence = 1
  serverSequence : t.connection.serverSequence = 1
  accepted : ∃ finished, p.conclusion c = .ok [inClear .changeCipherSpec [1], finished]
  carried : I t.transport (wire c.records) (p.answer (wire c.records))
  reader : t.connection.reader = .empty

omit [RandomSource ρ] in
/-- Then it verifies the server's Finished message and is established. -/
theorem exists_concluded {c : Spoken} {secrets : Secrets} {expected : Bytes}
    (h : Spoke p id I t c secrets expected) (hc : Carries id t.config.pollLimit p.answer I)
    (hlast : ∀ r ∈ p.flight.records.getLast?, r.fragment ≠ []) {fuel : Nat} (hfuel : 2 ≤ fuel) :
    ∃ u, receiveEnd fuel t = .ok () u ∧ Concluded p I u c := by
  obtain ⟨verifyData, hdata, hlength⟩ := Prf.expand_eq_ok secrets.master "server finished"
    (Sha256.hash (p.transcript c ++ finishedMessage expected))
    (show 12 ≤ Prf.outputLimit by decide)
  have hconclusion := p.conclusion_eq_ok h.derived h.verifyData hdata h.change h.finished
  have hdata' : Prf.verifyData t.connection.masterSecret "server finished"
      t.connection.transcript.finish = .ok verifyData := by
    rw [h.masterSecret, h.transcript]
    exact hdata
  -- The server has heard the client's Finished message, so its answer is complete.
  have hanswer : p.answer (wire c.records) = wire (p.flight.records ++
      [inClear .changeCipherSpec [1]] ++
      [lastRecord secrets.server (finishedMessage verifyData) p.random]) := by
    have hreply : p.reply c.records = p.flight.records ++ (p.conclusion c).toOption.getD [] := rfl
    rw [p.answer_wire h.acceptable, hreply, hconclusion, List.append_assoc]
    rfl
  have hflight : ∀ r ∈ p.flight.records, r.Acceptable :=
    fun r hr => (p.flight.plain r hr).acceptable
  have hreceived := h.attached
  rw [p.flight.needed_eq_records hlast] at hreceived
  obtain ⟨transport, reader, transcript, hend, hattached⟩ :=
    receiveEnd_succeeds hc hreceived hflight h.state h.readProtection h.pendingReadProtection
      h.handshakeBuffer h.suite hdata' hlength p.random (hanswer ▸ List.prefix_refl _) hfuel
  refine ⟨_, hend, ?_⟩
  have hcarried : I transport (wire c.records) (p.answer (wire c.records) ++ reader.buffer) := by
    rw [hanswer]
    exact hattached.carried
  have hempty : reader.buffer = [] := by
    have hle := (hc.taken hcarried).length_le
    rw [List.length_append] at hle
    apply List.length_eq_zero_iff.1
    omega
  rw [hempty, List.append_nil] at hcarried
  constructor
  case state => rfl
  case suite => exact h.suite
  case serverKey => exact h.serverKey
  case secrets =>
    exact ⟨secrets, h.derived, h.masterSecret, h.writeProtection, h.pendingReadProtection⟩
  case clientSequence => exact h.clientSequence
  case serverSequence => rfl
  case accepted => exact ⟨_, hconclusion⟩
  case carried => exact hcarried
  case reader => exact congrArg RecordReader.mk hempty

omit [RandomSource ρ] in
/-- What is left of the flight is in the place of the change of the cipher. -/
theorem exists_refused {c : Spoken} {secrets : Secrets} {expected : Bytes}
    (h : Spoke p id I t c secrets expected) (hc : Carries id t.config.pollLimit p.answer I)
    {r : Record} (hr : r ∈ p.flight.records.getLast?) (hempty : r.fragment = []) (fuel : Nat) :
    ∃ u, receiveEnd fuel t = .error (.failed (.unexpectedContentType .handshake)) u := by
  obtain ⟨x, rest, hidle⟩ := List.exists_cons_of_ne_nil (p.flight.idle_ne_nil hr hempty)
  have hrecords : p.flight.needed ++ [x] ++ rest = p.flight.records := by
    rw [← p.flight.needed_append_idle, hidle, List.append_assoc]
    rfl
  have hx : x ∈ p.flight.records := by
    rw [← hrecords]
    simp
  have hanswer : wire (p.flight.needed ++ [x]) <+: p.answer (wire c.records) := by
    have hreply : p.reply c.records = p.flight.records ++ (p.conclusion c).toOption.getD [] := rfl
    rw [p.answer_wire h.acceptable, hreply, ← hrecords, List.append_assoc,
      wire_append (p.flight.needed ++ [x])]
    exact List.prefix_append _ _
  have hneeded : ∀ r ∈ p.flight.needed, r.Acceptable :=
    fun r hr => (p.flight.plain_needed r hr).acceptable
  obtain ⟨u, hrefuses⟩ := receiveChangeCipherSpec_refuses hc h.attached hneeded
    (p.flight.plain x hx) hanswer h.readProtection
  exact ⟨u, bind_of_error hrefuses⟩

/-! ### The whole handshake -/

/-- A new session that is about to be connected to the server `p`, under the name `host`. -/
structure Ready (p : Responder σ) (id : LinkId) (I : τ → Bytes → Bytes → Prop) (s : Session τ ρ)
    (host : String) (peer : Endpoint) : Prop where
  fresh : s.connection = .fresh
  offered : p.flight.hello.suite ∈ s.config.suites
  lively : RandomSource.Lively s.random
  host_size : host.utf8ByteSize ≤ hostLimit
  connects : ∃ transport, Transport.connect s.transport peer = (.ok id, transport) ∧
    I transport [] []
  carries : Carries id s.config.pollLimit p.answer I

/-- Both halves succeed if there is fuel enough. -/
theorem Ready.exists_halves {host : String} {peer : Endpoint} (h : Ready p id I s host peer)
    (now : Clock) :
    ∃ bound, ∀ fuel, bound ≤ fuel → ∃ t u c secrets expected,
      listen fuel now host peer s = .ok () t ∧ speak fuel t = .ok () u ∧
      Spoke p id I u c secrets expected ∧ u.config = s.config := by
  obtain ⟨transport, hconnect, hI⟩ := h.connects
  have hleads : RandomSource.Leads s.random (HelloRandom.draw now s.random).2 :=
    RandomSource.leads_bytes s.random 28
  obtain ⟨bound, encrypted, random, hencrypt, hopens, hshort⟩ :=
    exists_exchange p.inverts p.flight.key_length (h.lively.of_leads hleads)
  refine ⟨max bound p.patience, ?_⟩
  intro fuel hfuel
  obtain ⟨hbound, hpatience⟩ := Nat.max_le.1 hfuel
  let linked : Session τ ρ := { s with
    transport := transport
    connection := { s.connection with link := some id } }
  have hlinked : linked.connection = { Connection.fresh with link := some id } :=
    congrArg (fun c => { c with link := some id }) h.fresh
  obtain ⟨u, v, hello, hhello, hflight, hanswered, hconfig, hrandom⟩ :=
    exists_answered hlinked h.carries hI h.offered now h.host_size hpatience
  change v.random = (HelloRandom.draw now s.random).2 at hrandom
  rw [← hrandom] at hencrypt hopens
  have hsupported := s.config.supported_of_mem _ h.offered
  obtain ⟨w, c, secrets, expected, hspeak, hspoke, hconfig'⟩ :=
    exists_spoke hanswered (hconfig ▸ h.carries) hsupported (hencrypt fuel hbound) hopens hshort
  refine ⟨v, w, c, secrets, expected, ?_, hspeak, hspoke, hconfig'.trans hconfig⟩
  have hoperate : (operate (Transport.connect · peer) : Action τ ρ LinkId) s =
      .ok id { s with transport := transport } := by
    rw [operate, hconnect]
  apply (bind_of_ok hoperate).trans
  apply (bind_of_ok rfl).trans
  apply (bind_of_ok hhello).trans
  exact hflight

omit [Transport τ] [RandomSource ρ] in
theorem state_of_fresh (h : s.connection = .fresh) : s.connection.state = .init := by
  rw [h]
  rfl

/-- A handshake with a server that does its part succeeds, if there is fuel enough, and leaves both
ends with the same secrets. -/
theorem handshake_completes {host : String} {peer : Endpoint} (h : Ready p id I s host peer)
    (hlast : ∀ r ∈ p.flight.records.getLast?, r.fragment ≠ []) (now : Clock) :
    ∃ bound, ∀ fuel, bound ≤ fuel →
      ∃ t c, handshake fuel now host peer s = .ok () t ∧ Concluded p I t c := by
  obtain ⟨bound, hhalves⟩ := h.exists_halves now
  refine ⟨max bound 2, ?_⟩
  intro fuel hfuel
  obtain ⟨hbound, htwo⟩ := Nat.max_le.1 hfuel
  obtain ⟨t, u, c, secrets, expected, hlisten, hspeak, hspoke, hconfig⟩ := hhalves fuel hbound
  have hc : Carries id u.config.pollLimit p.answer I := by
    rw [hconfig]
    exact h.carries
  obtain ⟨v, hend, hconcluded⟩ := exists_concluded hspoke hc hlast htwo
  exact ⟨v, c, handshake_of_parts (state_of_fresh h.fresh) hlisten hspeak hend, hconcluded⟩

/-- A handshake with a server whose flight ends with an empty record fails. -/
theorem handshake_refuses {host : String} {peer : Endpoint} (h : Ready p id I s host peer)
    {r : Record} (hr : r ∈ p.flight.records.getLast?) (hempty : r.fragment = []) (now : Clock) :
    ∃ bound, ∀ fuel, bound ≤ fuel → ∃ t,
      handshake fuel now host peer s = .error (.failed (.unexpectedContentType .handshake)) t := by
  obtain ⟨bound, hhalves⟩ := h.exists_halves now
  refine ⟨bound, ?_⟩
  intro fuel hfuel
  obtain ⟨t, u, c, secrets, expected, hlisten, hspeak, hspoke, hconfig⟩ := hhalves fuel hfuel
  have hc : Carries id u.config.pollLimit p.answer I := by
    rw [hconfig]
    exact h.carries
  obtain ⟨v, hend⟩ := exists_refused hspoke hc hr hempty fuel
  refine ⟨{ v with connection := v.connection.failed }, ?_⟩
  rw [handshake_of_halves (state_of_fresh h.fresh) hlisten hspeak, orFail, hend]

/-! ### Two servers -/

/-- A client that has a server at the other end of its transport is ready. -/
theorem ready_clientOf {p : Responder σ} (hsuite : p.flight.hello.suite ∈ Config.standard.suites) :
    Ready p ⟨0⟩ Direct.Carried (clientOf p) "example.com" .unspecified where
  fresh := rfl
  offered := hsuite
  lively := ScriptedSource.lively (show (ScriptedSource.ofBytes []).next ≠ 0 by decide)
  host_size := by decide
  connects := ⟨_, rfl, Direct.Carried.start⟩
  carries := Direct.carries p (show 5 ≤ Config.standard.pollLimit by decide)

/-- A client comes to its end with a server that is really there. -/
theorem sample_completes :
    ∃ bound, ∀ fuel, bound ≤ fuel →
      ∃ t c, handshake fuel ⟨0, 0⟩ "example.com" .unspecified (clientOf sampleServer) = .ok () t ∧
        Concluded sampleServer Direct.Carried t c :=
  handshake_completes (ready_clientOf (by decide)) (by decide +kernel) ⟨0, 0⟩

def ServerFlight.trailing (f : ServerFlight) : ServerFlight where
  __ := f
  records := f.records ++ [inClear .handshake []]
  plain := by
    have hempty : Plain (inClear .handshake []) := ⟨rfl, rfl, by decide⟩
    exact List.forall_mem_append.2 ⟨f.plain, List.forall_mem_singleton.2 hempty⟩
  fragments := by
    rw [List.map_append, List.flatten_append, f.fragments]
    exact List.append_nil _

def Responder.trailing (p : Responder σ) : Responder σ where
  __ := p
  flight := p.flight.trailing
  inverts := p.inverts

/-- A client does not come to its end with such a server, although it is ready. -/
theorem trailing_refused :
    Ready sampleServer.trailing ⟨0⟩ Direct.Carried (clientOf sampleServer.trailing) "example.com"
      .unspecified ∧
    ¬ ∃ bound, ∀ fuel, bound ≤ fuel → ∃ t c,
      handshake fuel ⟨0, 0⟩ "example.com" .unspecified (clientOf sampleServer.trailing) =
        .ok () t ∧ Concluded sampleServer.trailing Direct.Carried t c := by
  have hready : Ready sampleServer.trailing ⟨0⟩ Direct.Carried (clientOf sampleServer.trailing)
      "example.com" .unspecified := ready_clientOf (by decide)
  refine ⟨hready, ?_⟩
  rintro ⟨bound, hcompletes⟩
  have hlast : inClear .handshake [] ∈ sampleServer.trailing.flight.records.getLast? :=
    List.getLast?_concat
  obtain ⟨bound', hrefuses⟩ := handshake_refuses hready hlast rfl ⟨0, 0⟩
  obtain ⟨t, c, hok, -⟩ := hcompletes (max bound bound') (Nat.le_max_left _ _)
  obtain ⟨u, herror⟩ := hrefuses (max bound bound') (Nat.le_max_right _ _)
  rw [herror] at hok
  cases hok

end TlsClient.Session
