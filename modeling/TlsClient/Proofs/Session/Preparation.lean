import TlsClient.Proofs.Session.Calls
import TlsClient.Proofs.Session.Conversation

namespace TlsClient.Session

open Network

variable {τ ρ : Type}

structure Said where
  /-- The records that were sent, all in the clear. -/
  records : List Record
  /-- The records that were taken. -/
  flight : List Record
  /-- What has entered the transcript. -/
  transcript : Bytes
  /-- What is in the records of the flight after the messages. -/
  buffered : Bytes
  clientRandom : HelloRandom
  serverRandom : HelloRandom
  suite : Option CipherSuite
  serverKey : Option PublicKey

/-- Since `s` the session `t` has said and heard `w`. -/
structure Since (s t : Session (Recorded τ) ρ) (w : Said) : Prop where
  config : t.config = s.config
  sends : Sends s t w.records
  short : ∀ r ∈ w.records, r.fragment.length ≤ Record.maxPlaintext
  received : t.transport.received =
    s.transport.received ++ wire w.flight ++ t.connection.reader.buffer
  transcript : t.connection.transcript = Sha256.empty.update w.transcript
  buffered : t.connection.handshakeBuffer = w.buffered
  clientRandom : t.connection.clientRandom = w.clientRandom
  serverRandom : t.connection.serverRandom = w.serverRandom
  suite : t.connection.suite = w.suite
  serverKey : t.connection.serverKey = w.serverKey
  link : t.connection.link.isSome = true
  pending : t.connection.pending = []
  readProtection : t.connection.readProtection = none

def nothing : Said := ⟨[], [], [], [], default, default, none, none⟩

theorem since_linked {s t : Session (Recorded τ) ρ} (id : LinkId) (hconfig : t.config = s.config)
    (hsent : t.transport.sent = s.transport.sent)
    (hreceived : t.transport.received = s.transport.received)
    (ht : t.connection = { Connection.fresh with link := some id }) : Since s t nothing := by
  refine ⟨hconfig, ?_, ?_, ?_, ?_, ?_, ?_, ?_, ?_, ?_, ?_, ?_, ?_⟩
  · rw [Sends, hsent]
    exact (List.append_nil _).symm
  · intro r hr
    cases hr
  · rw [hreceived, ht]
    simp [nothing, Connection.fresh, RecordReader.empty]
  · rw [ht]
    exact Sha256.update_nil.symm
  all_goals
    rw [ht]
    rfl

theorem connect_ends [Transport τ] (peer : Endpoint) (s : Session (Recorded τ) ρ) :
    Ends (operate (Transport.connect · peer)) s
      (fun _ t => ∃ inner, t = { s with transport := { s.transport with inner } })
      (fun _ t => ∃ inner, t = { s with transport := { s.transport with inner } }) := by
  unfold Ends operate
  simp only [Transport.connect]
  cases Transport.connect s.transport.inner peer with
  | mk result inner =>
    cases result with
    | ok _ => exact ⟨inner, rfl⟩
    | error _ => exact ⟨inner, rfl⟩

/-- From `s` to `t` a beginning of the records in the clear was sent and nothing else. -/
def Begun (s t : Session (Recorded τ) ρ) (clientHello exchange : Bytes) : Prop :=
  ∃ records, records <+: opening clientHello exchange ∧
    (∀ r ∈ records, r.fragment.length ≤ Record.maxPlaintext) ∧ Sends s t records

section
variable {s t u : Session (Recorded τ) ρ} {w : Said} {clientHello exchange : Bytes}

/-- A handshake that has stopped after some of the records in the clear has sent a beginning of
them. -/
theorem Since.begun (h : Since s t w) (hu : u.transport.sent = t.transport.sent)
    (hbegins : w.records <+: opening clientHello exchange) : Begun s u clientHello exchange :=
  ⟨w.records, hbegins, h.short, hu.trans h.sends⟩

theorem Since.begun_of_maySend {contentType : ContentType} {payload : Bytes} (h : Since s t w)
    (hu : MaySend t u contentType payload)
    (hbegins : w.records ++ [inClear contentType payload] <+: opening clientHello exchange) :
    Begun s u clientHello exchange := by
  rcases hu with hu | ⟨hpayload, hu⟩
  · exact ⟨w.records, (List.prefix_append _ _).trans hbegins, h.short,
      List.append_nil w.records ▸ h.sends.trans hu⟩
  · refine ⟨_, hbegins, ?_, h.sends.trans hu⟩
    exact List.forall_mem_append.2 ⟨h.short, List.forall_mem_singleton.2 hpayload⟩

end

variable [Transport τ] [RandomSource ρ]

/-- The hello is the first record of all. -/
theorem sendHello_since (now : Clock) (host : String) {s t : Session (Recorded τ) ρ} {w : Said}
    (h : Since s t w) (hstate : t.connection.state = .init)
    (hclear : t.connection.writeProtection = none) (hw : w.records = []) :
    Ends (sendHello now host) t
      (fun _ u => ∃ clientRandom, Since s u { w with
          records := [inClear .handshake (helloMessage s.config clientRandom host)]
          transcript := w.transcript ++ helloMessage s.config clientRandom host
          clientRandom } ∧
        u.connection.state = .clientHelloSent ∧ u.connection.writeProtection = none)
      (fun _ u => ∃ clientRandom,
        Begun s u (helloMessage s.config clientRandom host) (exchangeMessage [])) := by
  refine (sendHello_ends now host t hclear).mono ?_ ?_
  · intro _ u hu
    obtain ⟨inner, random, clientRandom, state, hnext, hhello, rfl⟩ := hu
    rw [hstate] at hnext
    obtain rfl := (Option.some.inj hnext).symm
    rw [h.config] at hhello ⊢
    have hsends := h.sends
    rw [hw] at hsends
    refine ⟨clientRandom, { h with
      config := rfl
      sends := hsends.trans (show Sends t _ [_] from rfl)
      short := List.forall_mem_singleton.2 hhello
      transcript := ?_
      clientRandom := rfl }, rfl, hclear⟩
    rw [← Sha256.update_update, ← h.transcript]
  · intro e u hu
    obtain ⟨clientRandom, hu⟩ := hu
    rw [h.config] at hu
    refine ⟨clientRandom, h.begun_of_maySend hu ?_⟩
    rw [hw]
    exact ⟨_, rfl⟩

omit [RandomSource ρ] in
/-- The flight adds what the server says, and nothing that the client sends. -/
theorem receiveFlight_since (fuel : Nat) {s t : Session (Recorded τ) ρ} {w : Said} {hello : Bytes}
    (h : Since s t w) (hstate : t.connection.state = .clientHelloSent)
    (hclear : t.connection.writeProtection = none)
    (hw : w.records = [inClear .handshake hello]) (hflight : w.flight = [])
    (hsuite : w.suite = none) (hbuffer : w.buffered = []) :
    Ends (receiveFlight fuel) t
      (fun _ u => ∃ (flight : List Record) (answer : Answer) (serverHello : ServerHello)
          (key : PublicKey) (buffered : Bytes),
        Since s u { w with
          flight
          transcript := w.transcript ++ answer.transcript
          buffered
          serverRandom := serverHello.random
          suite := some serverHello.suite
          serverKey := some key } ∧
        (∀ r ∈ flight, r.Acceptable ∧ r.contentType = .handshake) ∧
        flight.flatMap Record.fragment = answer.messages.flatten ++ buffered ∧
        Agrees s.config answer serverHello key ∧ u.connection.writeProtection = none)
      (fun _ u => Begun s u hello (exchangeMessage [])) := by
  refine (receiveFlight_ends fuel t hstate).mono ?_ ?_
  · intro _ u hu
    obtain ⟨xs, answer, serverHello, key, hears, hisHello, hversion, hoffered, hcompression, hkey,
      hagreed⟩ := hu
    have hopened := hears.intake.opened
    rw [h.readProtection] at hopened
    -- Nothing is opened yet, so the records carry what is in their fragments.
    have hcontents : (xs.map Prod.fst).flatMap Record.fragment = contents xs := by
      rw [List.flatMap_map, contents]
      apply List.flatMap_congr
      intro x hx
      exact (hopened.1 x hx).symm
    have hbytes := hears.bytes
    rw [h.buffered, hbuffer, List.nil_append] at hbytes
    have hstart := h.received
    rw [hflight, wire_nil, List.append_nil] at hstart
    have hreceived := hears.intake.received hstart
    -- What was settled is what the answer says, and the transcript has grown by it.
    have hserverKey := congrArg Agreed.serverKey hagreed
    have hsuite' := congrArg Agreed.suite hagreed
    have hrandom := congrArg Agreed.serverRandom hagreed
    have htranscript := congrArg Agreed.transcript hagreed
    rw [h.transcript, Sha256.update_update] at htranscript
    have hframed := hears.framed
    have hall := hears.all
    have hacceptable := hears.intake.acceptable
    obtain ⟨inner, received, lastAlert, reader, sequence, buffer, state, suite, serverRandom,
      sessionId, serverKey, transcript, rfl⟩ := hears.listens
    refine ⟨xs.map Prod.fst, answer, serverHello, key, buffer, { h with
      received := hreceived
      transcript := htranscript
      buffered := rfl
      serverRandom := hrandom
      suite := hsuite'
      serverKey := hserverKey }, ?_,
      hcontents.trans hbytes, ?_, hclear⟩
    · intro r hr
      obtain ⟨x, hx, rfl⟩ := List.mem_map.1 hr
      exact ⟨hacceptable x hx, hall x hx⟩
    · exact ⟨hframed, (h.suite.trans hsuite) ▸ hisHello, hversion, h.config ▸ hoffered, hcompression,
        hkey⟩
  · intro e u hu
    apply h.begun hu
    rw [hw]
    exact ⟨_, rfl⟩

/-- The key exchange adds one record, with a secret that the server's key is used on. -/
theorem sendKeyExchange_since (fuel : Nat) {s t : Session (Recorded τ) ρ} {w : Said}
    {hello : Bytes} {key : PublicKey} (h : Since s t w)
    (hclear : t.connection.writeProtection = none)
    (hw : w.records = [inClear .handshake hello]) (hkey : w.serverKey = some key) :
    Ends (sendKeyExchange fuel) t
      (fun preMaster u => IsPreMaster preMaster ∧ ∃ encrypted, key.Encrypts preMaster encrypted ∧
        Since s u { w with
          records := [inClear .handshake hello, inClear .handshake (exchangeMessage encrypted)]
          transcript := w.transcript ++ exchangeMessage encrypted })
      (fun _ u => ∃ encrypted, Begun s u hello (exchangeMessage encrypted)) := by
  refine (sendKeyExchange_ends fuel t hclear).mono ?_ ?_
  · intro preMaster u hu
    obtain ⟨inner, random, key', encrypted, state, hkey', hform, hencrypts, hexchange, -, rfl⟩ := hu
    -- The key that was used is the one that was heard.
    obtain rfl : key = key' := Option.some.inj (hkey.symm.trans (h.serverKey.symm.trans hkey'))
    have hsends := h.sends
    have hshort := h.short
    rw [hw] at hsends hshort
    refine ⟨hform, encrypted, hencrypts, { h with
      sends := hsends.trans (show Sends t _ [_] from rfl)
      short := List.forall_mem_append.2 ⟨hshort, List.forall_mem_singleton.2 hexchange⟩
      transcript := ?_ }⟩
    rw [← Sha256.update_update, ← h.transcript]
  · intro e u hu
    obtain ⟨encrypted, hu⟩ := hu
    refine ⟨encrypted, h.begun_of_maySend hu ?_⟩
    rw [hw]
    exact ⟨_, rfl⟩

structure Preparation where
  clientHello : Bytes
  /-- The records that carried the server's answer. -/
  flight : List Record
  answer : Answer
  /-- What is in these records after the answer. -/
  buffered : Bytes
  serverHello : ServerHello
  serverKey : PublicKey
  preMaster : Bytes
  encrypted : Bytes
  keys : KeyMaterial

namespace Preparation

variable (p : Preparation)

def exchange : Bytes :=
  exchangeMessage p.encrypted

def agreement : Bytes :=
  p.clientHello ++ p.answer.transcript ++ p.exchange

def protection (side : Side) : Protection :=
  Protection.ofKeys p.serverHello.suite p.keys side

def said (clientRandom : HelloRandom) : Said where
  records := opening p.clientHello p.exchange
  flight := p.flight
  transcript := p.agreement
  buffered := p.buffered
  clientRandom := clientRandom
  serverRandom := p.serverHello.random
  suite := some p.serverHello.suite
  serverKey := some p.serverKey

end Preparation

/-- Since `s` the session `t` has come to the point where it sends its Finished message. -/
structure Prepared (host : String) (s t : Session (Recorded τ) ρ) (p : Preparation) : Prop where
  since : Since s t (p.said t.connection.clientRandom)
  clientHello : p.clientHello = helloMessage s.config t.connection.clientRandom host
  flight : ∀ r ∈ p.flight, r.Acceptable ∧ r.contentType = .handshake
  fragments : p.flight.flatMap Record.fragment = p.answer.messages.flatten ++ p.buffered
  agrees : Agrees s.config p.answer p.serverHello p.serverKey
  preMaster : IsPreMaster p.preMaster
  encrypts : p.serverKey.Encrypts p.preMaster p.encrypted
  master : Prf.masterSecret p.preMaster t.connection.clientRandom.toBytes
    p.serverHello.random.toBytes = .ok t.connection.masterSecret
  keyed : Keyed t.connection p.serverHello.suite p.keys
  writeProtection : t.connection.writeProtection = some (p.protection .client)
  pendingReadProtection : t.connection.pendingReadProtection = some (p.protection .server)
  clientSequence : t.connection.clientSequence = 0

/-- A handshake of a fresh session ends as its Finished messages do once it is prepared for them,
unless it stops before. -/
theorem negotiate_prepares (fuel : Nat) (now : Clock) (host : String) (peer : Endpoint)
    (s : Session (Recorded τ) ρ) (hfresh : s.connection = .fresh)
    {R : Unit → Session (Recorded τ) ρ → Prop} {E : Stop → Session (Recorded τ) ρ → Prop}
    (hstop : ∀ e t clientRandom encrypted,
      Begun s t (helloMessage s.config clientRandom host) (exchangeMessage encrypted) → E e t)
    (hfinish : ∀ t p, Prepared host s t p →
      Ends (do
        sendFinished
        receiveEnd fuel : Action (Recorded τ) ρ Unit) t R E) :
    Ends (negotiate fuel now host peer) s R E := by
  refine Ends.bind_mono (connect_ends peer s) ?_ ?_
  · intro e t ht
    obtain ⟨inner, rfl⟩ := ht
    -- Without a connection nothing was said, and any hello will do.
    refine hstop e _ default [] ⟨[], List.nil_prefix, ?_, Sends.refl s⟩
    intro r hr
    cases hr
  intro id t ht
  obtain ⟨inner, rfl⟩ := ht
  apply Ends.bind_update
  have hlinked := since_linked (s := s)
    (t := { s with
      transport := { s.transport with inner }
      connection := { s.connection with link := some id } }) id rfl rfl rfl (by rw [hfresh])
  refine Ends.bind_mono (sendHello_since now host hlinked ?_ ?_ rfl) ?_ ?_
  · dsimp only
    rw [hfresh]
    rfl
  · dsimp only
    rw [hfresh]
    rfl
  · intro e t ht
    obtain ⟨clientRandom, ht⟩ := ht
    exact hstop e t clientRandom [] ht
  intro _ t ht
  obtain ⟨clientRandom, hsaid, hstate, hclear⟩ := ht
  refine Ends.bind_mono (receiveFlight_since fuel hsaid hstate hclear rfl rfl rfl rfl) ?_ ?_
  · intro e u hu
    exact hstop e u clientRandom [] hu
  intro _ u hu
  obtain ⟨flight, answer, serverHello, key, buffered, hheard, hflight, hfragments, hagrees,
    hclear⟩ := hu
  refine Ends.bind_mono (sendKeyExchange_since fuel hheard hclear rfl rfl) ?_ ?_
  · intro e v hv
    obtain ⟨encrypted, hv⟩ := hv
    exact hstop e v clientRandom encrypted hv
  intro preMaster v hexchanged
  obtain ⟨hform, encrypted, hencrypts, hexchanged⟩ := hexchanged
  refine Ends.bind_mono (deriveKeys_ends preMaster v) ?_ ?_
  · intro e u hu
    exact hstop e u clientRandom encrypted (hexchanged.begun hu ⟨_, rfl⟩)
  intro _ u hu
  obtain ⟨suite, keys, master, hmaster, hkeyed, rfl⟩ := hu
  rw [hexchanged.clientRandom, hexchanged.serverRandom] at hmaster
  -- The keys are made for the suite that the server's hello has selected.
  obtain rfl : suite = serverHello.suite :=
    Option.some.inj (hkeyed.1.symm.trans hexchanged.suite)
  refine Ends.bind_mono (sendChangeCipherSpec_ends _) ?_ ?_
  · intro e u hu
    have hkeying : Since s (v.keying serverHello.suite keys master) _ := { hexchanged with }
    exact hstop e u clientRandom encrypted (hkeying.begun_of_maySend hu (List.prefix_refl _))
  intro _ u hu
  obtain ⟨inner, state, -, rfl⟩ := hu
  apply hfinish _ ⟨helloMessage s.config clientRandom host, flight, answer, buffered, serverHello,
    key, preMaster, encrypted, keys⟩
  have hrandom := hexchanged.clientRandom
  exact {
    since := { hexchanged with
      sends := hexchanged.sends.trans rfl
      short := List.forall_mem_append.2
        ⟨hexchanged.short, List.forall_mem_singleton.2 (by decide)⟩
      transcript := hexchanged.transcript
      clientRandom := rfl }
    clientHello := congrArg (helloMessage s.config · host) hrandom.symm
    flight := hflight
    fragments := hfragments
    agrees := hagrees
    preMaster := hform
    encrypts := hencrypts
    master := (congrArg (fun r : HelloRandom => Prf.masterSecret preMaster r.toBytes
      serverHello.random.toBytes) hrandom).trans hmaster
    keyed := hkeyed
    writeProtection := rfl
    pendingReadProtection := rfl
    clientSequence := rfl }

end TlsClient.Session
