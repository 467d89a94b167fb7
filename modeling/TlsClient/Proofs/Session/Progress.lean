import TlsClient.Proofs.Session.Responder

namespace TlsClient.Session

open Network Handshake

variable {τ ρ : Type} [Transport τ] [RandomSource ρ]
variable {id : LinkId} {polls : Nat} {answer : Bytes → Bytes} {I : τ → Bytes → Bytes → Prop}
variable {s t : Session τ ρ} {heard before : Bytes}

/-! ### Sending -/

def carrying (s : Session τ ρ) (transport : τ) : Session τ ρ :=
  { s with transport }

omit [Transport τ] [RandomSource ρ] in
theorem advance_of_next {event : Event} (state : State)
    (h : s.connection.state.next? event = some state) :
    advance event s = .ok () (s.updating fun c => { c with state }) := by
  have hnext : s.connection.state.next event = .ok state := by
    rw [State.next, h]
  apply bind_eq_ok_iff.2
  refine ⟨s.connection, s, rfl, ?_⟩
  apply bind_eq_ok_iff.2
  exact ⟨state, s, check_eq_ok_iff.2 ⟨hnext, rfl⟩, rfl⟩

/-- A payload is sent once there is a fragment that carries it and the transport accepts that. -/
theorem transmit_of_send {protection : Option Protection} {contentType : ContentType}
    {payload fragment : Bytes} {transport : τ} (hlink : s.connection.link = some id)
    (hshort : payload.length ≤ Record.maxPlaintext)
    (hfragment : fragmentOf protection contentType payload s = .ok fragment t)
    (hsend : Transport.send t.transport id (Record.toBytes ⟨contentType, .tls12, fragment⟩) =
      (.ok (Record.toBytes ⟨contentType, .tls12, fragment⟩).length, transport)) :
    transmit protection contentType payload s = .ok () (t.carrying transport) := by
  apply bind_eq_ok_iff.2
  refine ⟨id, s, link_eq_ok_iff.2 ⟨hlink, rfl⟩, ?_⟩
  rw [if_neg (Nat.not_lt.2 hshort)]
  apply bind_eq_ok_iff.2
  refine ⟨fragment, t, hfragment, ?_⟩
  apply bind_eq_ok_iff.2
  refine ⟨(Record.toBytes ⟨contentType, .tls12, fragment⟩).length, t.carrying transport, ?_, ?_⟩
  · rw [operate, hsend]
    rfl
  · rw [if_pos rfl]
    rfl

/-- A record reaches a transport that accepts all that is sent over it. -/
theorem transmit_of_fragment (hc : Carries id polls answer I) {protection : Option Protection}
    {contentType : ContentType} {payload fragment : Bytes}
    (hlink : s.connection.link = some id) (hshort : payload.length ≤ Record.maxPlaintext)
    (hfragment : fragmentOf protection contentType payload s = .ok fragment t)
    (h : Attached id polls I t heard before) :
    ∃ transport, transmit protection contentType payload s = .ok () (t.carrying transport) ∧
      Attached id polls I (t.carrying transport)
        (heard ++ Record.toBytes ⟨contentType, .tls12, fragment⟩) before := by
  obtain ⟨transport, hsend, hI⟩ := hc.send (Record.toBytes ⟨contentType, .tls12, fragment⟩) h.carried
  exact ⟨transport, transmit_of_send hlink hshort hfragment hsend, h.link, h.polls, hI⟩

theorem transmit_clear (hc : Carries id polls answer I) (h : Attached id polls I s heard before)
    (contentType : ContentType) {payload : Bytes} (hshort : payload.length ≤ Record.maxPlaintext) :
    ∃ transport, transmit none contentType payload s = .ok () (s.carrying transport) ∧
      Attached id polls I (s.carrying transport)
        (heard ++ (inClear contentType payload).toBytes) before :=
  transmit_of_fragment hc h.link hshort rfl h

def sealing (s : Session τ ρ) (random : ρ) : Session τ ρ :=
  { s with random, connection := { s.connection with clientSequence := 1 } }

theorem transmit_sealed (hc : Carries id polls answer I) (h : Attached id polls I s heard before)
    (p : Protection) (contentType : ContentType) {payload : Bytes}
    (hshort : payload.length ≤ Record.maxPlaintext) (hzero : s.connection.clientSequence = 0) :
    ∃ transport,
      transmit (some p) contentType payload s =
        .ok () ((s.sealing (p.protect ⟨0, contentType, .tls12⟩ payload s.random).2).carrying
          transport) ∧
      Attached id polls I
        ((s.sealing (p.protect ⟨0, contentType, .tls12⟩ payload s.random).2).carrying transport)
        (heard ++ Record.toBytes ⟨contentType, .tls12,
          (p.protect ⟨0, contentType, .tls12⟩ payload s.random).1⟩) before := by
  have hattached : Attached id polls I
      (s.sealing (p.protect ⟨0, contentType, .tls12⟩ payload s.random).2) heard before :=
    ⟨h.link, h.polls, h.carried⟩
  refine transmit_of_fragment hc h.link hshort ?_ hattached
  apply bind_eq_ok_iff.2
  refine ⟨s.connection, s, rfl, ?_⟩
  rw [hzero]
  rfl

theorem sendMessage_of_send {transport : τ} (hlink : s.connection.link = some id)
    (hclear : s.connection.writeProtection = none) {kind : MessageType} {body : HandshakeBody}
    {m : Bytes} (hm : m = Handshake.toBytes ⟨⟨kind, 0⟩, body⟩)
    (hshort : m.length ≤ Record.maxPlaintext)
    (hsend : Transport.send s.transport id (inClear .handshake m).toBytes =
      (.ok (inClear .handshake m).toBytes.length, transport)) :
    sendMessage kind body s = .ok () ((s.noting m).carrying transport) := by
  subst hm
  have hfragment (u : Session τ ρ) (m : Bytes) : fragmentOf none .handshake m u = .ok m u := rfl
  have htransmit := transmit_of_send (s := s.noting (Handshake.toBytes ⟨⟨kind, 0⟩, body⟩)) hlink
    hshort (hfragment _ _) hsend
  rw [← hclear] at htransmit
  exact htransmit

/-- So does a message in the clear. -/
theorem sendMessage_clear (hc : Carries id polls answer I) (h : Attached id polls I s heard before)
    (hclear : s.connection.writeProtection = none) {kind : MessageType} {body : HandshakeBody}
    {m : Bytes} (hm : m = Handshake.toBytes ⟨⟨kind, 0⟩, body⟩)
    (hshort : m.length ≤ Record.maxPlaintext) :
    ∃ transport, sendMessage kind body s = .ok () ((s.noting m).carrying transport) ∧
      Attached id polls I ((s.noting m).carrying transport)
        (heard ++ (inClear .handshake m).toBytes) before := by
  obtain ⟨transport, hsend, hI⟩ := hc.send (inClear .handshake m).toBytes h.carried
  exact ⟨transport, sendMessage_of_send h.link hclear hm hshort hsend, h.link, h.polls, hI⟩

/-- So does a message under new keys, as their first record. -/
theorem sendMessage_sealed (hc : Carries id polls answer I) (h : Attached id polls I s heard before)
    {p : Protection} (hp : s.connection.writeProtection = some p)
    (hzero : s.connection.clientSequence = 0) {kind : MessageType} {body : HandshakeBody}
    {m : Bytes} (hm : m = Handshake.toBytes ⟨⟨kind, 0⟩, body⟩)
    (hshort : m.length ≤ Record.maxPlaintext) :
    ∃ transport,
      sendMessage kind body s =
        .ok () (((s.noting m).sealing (p.protect ⟨0, .handshake, .tls12⟩ m s.random).2).carrying
          transport) ∧
      Attached id polls I
        (((s.noting m).sealing (p.protect ⟨0, .handshake, .tls12⟩ m s.random).2).carrying transport)
        (heard ++ Record.toBytes ⟨.handshake, .tls12,
          (p.protect ⟨0, .handshake, .tls12⟩ m s.random).1⟩) before := by
  subst hm
  have hattached :
      Attached id polls I (s.noting (Handshake.toBytes ⟨⟨kind, 0⟩, body⟩)) heard before :=
    ⟨h.link, h.polls, h.carried⟩
  obtain ⟨transport, hsend, hattached'⟩ := transmit_sealed hc hattached p .handshake hshort hzero
  refine ⟨transport, ?_, hattached'⟩
  rw [← hp] at hsend
  exact hsend

/-! ### The client's hello -/

/-- The hello fits one record, since the host is within its limit. -/
theorem length_helloMessage_le (config : Config) (random : HelloRandom) {host : String}
    (h : host.utf8ByteSize ≤ hostLimit) :
    (helloMessage config random host).length ≤ Record.maxPlaintext := by
  have hcount : config.suites.length ≤ 8 := config.length_suites_le
  have hextensions := ClientHello.length_extensionsFor_le host
  have hbody : (helloFor config random host).toBytes.length ≤ 39 + 0 + 2 * config.suites.length + 1 +
      (Extension.listToBytes (ClientHello.extensionsFor host)).length :=
    (helloFor config random host).length_toBytes_le
  have hmessage : (helloMessage config random host).length =
      4 + (helloFor config random host).toBytes.length := Handshake.length_toBytes _
  have hlimit : hostLimit = 255 := rfl
  have hmax : Record.maxPlaintext = 16384 := rfl
  omega

def greeting (s : Session τ ρ) (now : Clock) (host : String) : Session τ ρ :=
  { s with
    random := (HelloRandom.draw now s.random).2
    connection := { s.connection with
      clientRandom := (HelloRandom.draw now s.random).1
      state := .clientHelloSent
      transcript := s.connection.transcript.update
        (helloMessage s.config (HelloRandom.draw now s.random).1 host) } }

/-- The hello is always sent to a host within the limit. -/
theorem sendHello_succeeds (hc : Carries id polls answer I) (h : Attached id polls I s heard before)
    (hstate : s.connection.state = .init) (hclear : s.connection.writeProtection = none)
    (now : Clock) {host : String} (hhost : host.utf8ByteSize ≤ hostLimit) :
    ∃ transport, sendHello now host s = .ok () ((s.greeting now host).carrying transport) ∧
      Attached id polls I ((s.greeting now host).carrying transport)
        (heard ++ (inClear .handshake
          (helloMessage s.config (HelloRandom.draw now s.random).1 host)).toBytes) before := by
  let drawn : Session τ ρ := { s with
    random := (HelloRandom.draw now s.random).2
    connection := { s.connection with clientRandom := (HelloRandom.draw now s.random).1 } }
  have hdrawn : Attached id polls I drawn heard before := ⟨h.link, h.polls, h.carried⟩
  obtain ⟨transport, hsend, hattached⟩ := sendMessage_clear hc hdrawn hclear
    (rfl : helloMessage s.config (HelloRandom.draw now s.random).1 host = _)
    (length_helloMessage_le _ _ hhost)
  refine ⟨transport, ?_, hattached.link, hattached.polls, hattached.carried⟩
  rw [sendHello, if_neg (Nat.not_lt.2 hhost)]
  apply (bind_of_ok rfl).trans
  apply (bind_of_ok rfl).trans
  apply (bind_of_ok rfl).trans
  apply (bind_of_ok hsend).trans
  apply advance_of_next .clientHelloSent
  change s.connection.state.next? .sendClientHello = _
  rw [hstate]
  rfl

/-! ### The server's flight -/

section
omit [RandomSource ρ]

variable {P : τ → RecordReader → Prop} {fragments messages : List Bytes} {m : Bytes} {fuel : Nat}

omit [Transport τ] in
theorem expect_of_next {event : Event} {state : State} (kind : MessageType)
    (h : s.connection.state.next? event = some state) : expect kind event s = .ok () s := by
  apply (bind_of_ok (rfl : current s = .ok s.connection s)).trans
  rw [h]
  rfl

/-- A request to start over is passed over. -/
theorem receiveFlight_request (h : receiveMessage fuel s = .ok [0, 0, 0, 0] t) :
    receiveFlight (fuel + 1) s = receiveFlight fuel t := by
  rw [receiveFlight]
  apply (bind_of_ok h).trans
  apply (bind_of_ok rfl).trans
  apply (bind_of_ok rfl).trans
  rfl

/-- A message that is read enters the transcript, whatever is made of it then. -/
theorem receiveFlight_of_parse {message : Handshake} (h : receiveMessage fuel s = .ok m t)
    (hparse : Handshake.parse t.connection.suite m = .ok (message, []))
    (hkind : message.header.kind ≠ .helloRequest) :
    receiveFlight (fuel + 1) s =
      (match message.body with
      | .serverHello hello => do
        expect message.header.kind .serverHello
        acceptHello hello
        advance .serverHello
        receiveFlight fuel
      | .certificate chain => do
        expect message.header.kind .certificate
        acceptCertificate chain
        advance .certificate
        receiveFlight fuel
      | .serverHelloDone => do
        expect message.header.kind .serverHelloDone
        advance .serverHelloDone
      | _ => do fail (.unexpectedHandshake message.header.kind (← current).state) :
        Action τ ρ Unit) (t.noting m) := by
  have hmessage : (Handshake.parse t.connection.suite).parse m = .ok message := by
    rw [Wire.Parser.parse, hparse]
  rw [receiveFlight]
  apply (bind_of_ok h).trans
  apply (bind_of_ok (rfl : current t = .ok t.connection t)).trans
  apply (bind_of_ok (check_eq_ok_iff.2 ⟨hmessage, rfl⟩)).trans
  rw [if_neg hkind]
  apply (bind_of_ok (rfl : note m t = .ok () (t.noting m))).trans
  rfl

def selecting (hello : ServerHello) (c : Connection) : Connection :=
  { c with
    serverRandom := hello.random
    sessionId := hello.sessionId
    suite := some hello.suite }

omit [Transport τ] in
/-- A selection out of the offer is always accepted. -/
theorem acceptHello_succeeds {hello : ServerHello} (hversion : hello.version = .tls12)
    (hsuite : hello.suite ∈ s.config.suites) (hcompression : hello.compression = .null) :
    acceptHello hello s = .ok () (s.updating (selecting hello)) := by
  rw [acceptHello, if_neg (Decidable.not_not.2 hversion)]
  apply (bind_of_ok (x := s) (t := s) rfl).trans
  rw [if_neg (Decidable.not_not.2 hsuite), if_neg (Decidable.not_not.2 hcompression)]
  rfl

def welcomed (hello : ServerHello) (m : Bytes) (c : Connection) : Connection :=
  { selecting hello c with
    transcript := c.transcript.update m
    state := .serverHelloReceived }

/-- A hello that comes next takes the flight one message further. -/
theorem receiveFlight_hello {n : Nat} {hello : ServerHello}
    (h : receiveMessage fuel s = .ok m t)
    (hparse : Handshake.parse t.connection.suite m =
      .ok (⟨⟨.serverHello, n⟩, .serverHello hello⟩, []))
    (hstate : t.connection.state = .clientHelloSent) (hversion : hello.version = .tls12)
    (hsuite : hello.suite ∈ t.config.suites) (hcompression : hello.compression = .null) :
    receiveFlight (fuel + 1) s = receiveFlight fuel (t.updating (welcomed hello m)) := by
  have hnext : (t.noting m).connection.state.next? .serverHello = some .serverHelloReceived := by
    change t.connection.state.next? .serverHello = _
    rw [hstate]
    rfl
  have haccept : acceptHello hello (t.noting m) =
      .ok () ((t.noting m).updating (selecting hello)) :=
    acceptHello_succeeds hversion hsuite hcompression
  rw [receiveFlight_of_parse h hparse nofun]
  apply (bind_of_ok (expect_of_next .serverHello hnext)).trans
  apply (bind_of_ok haccept).trans
  exact bind_of_ok (advance_of_next _ hnext)

def certified (key : PublicKey) (m : Bytes) (c : Connection) : Connection :=
  { c with
    serverKey := some key
    transcript := c.transcript.update m
    state := .certificateReceived }

/-- So does a certificate with a key that comes behind it. -/
theorem receiveFlight_certificate {n : Nat} {chain : CertificateChain} {leaf : Bytes}
    {key : PublicKey} (h : receiveMessage fuel s = .ok m t)
    (hparse : Handshake.parse t.connection.suite m =
      .ok (⟨⟨.certificate, n⟩, .certificate chain⟩, []))
    (hstate : t.connection.state = .serverHelloReceived) (hleaf : chain.leaf? = some leaf)
    (hkey : Der.certificateKey leaf = .ok key) :
    receiveFlight (fuel + 1) s = receiveFlight fuel (t.updating (certified key m)) := by
  have hnext : (t.noting m).connection.state.next? .certificate = some .certificateReceived := by
    change t.connection.state.next? .certificate = _
    rw [hstate]
    rfl
  have haccept : acceptCertificate chain (t.noting m) =
      .ok () ((t.noting m).updating fun c => { c with serverKey := some key }) := by
    rw [acceptCertificate, hleaf]
    apply (bind_of_ok (check_eq_ok_iff.2 ⟨hkey, rfl⟩)).trans
    rfl
  rw [receiveFlight_of_parse h hparse nofun]
  apply (bind_of_ok (expect_of_next .certificate hnext)).trans
  apply (bind_of_ok haccept).trans
  exact bind_of_ok (advance_of_next _ hnext)

def dismissed (c : Connection) : Connection :=
  { c with
    transcript := c.transcript.update [14, 0, 0, 0]
    state := .serverHelloDoneReceived }

/-- The end of the hello ends the flight. -/
theorem receiveFlight_done (h : receiveMessage fuel s = .ok [14, 0, 0, 0] t)
    (hstate : t.connection.state = .certificateReceived) :
    receiveFlight (fuel + 1) s = .ok () (t.updating dismissed) := by
  have hnext : (t.noting [14, 0, 0, 0]).connection.state.next? .serverHelloDone =
      some .serverHelloDoneReceived := by
    change t.connection.state.next? .serverHelloDone = _
    rw [hstate]
    rfl
  have hparse : Handshake.parse t.connection.suite [14, 0, 0, 0] =
      .ok (⟨⟨.serverHelloDone, 0⟩, .serverHelloDone⟩, []) := rfl
  rw [receiveFlight_of_parse h hparse nofun]
  apply (bind_of_ok (expect_of_next .serverHelloDone hnext)).trans
  exact advance_of_next _ hnext

/-! None of these messages has to do with receiving records, so more of them can follow. -/

omit [Transport τ] in
theorem neutral_welcomed (hello : ServerHello) (m : Bytes) : Neutral (welcomed hello m) := by
  constructor <;> intros <;> rfl

omit [Transport τ] in
theorem neutral_certified (key : PublicKey) (m : Bytes) : Neutral (certified key m) := by
  constructor <;> intros <;> rfl

/-- The requests before a message are passed over, and the message is what is received then. -/
theorem receiveFlight_requests (n : Nat) (h : Ahead P s fragments (requests n ++ m :: messages))
    (hm : IsFramed m) (hlimit : m.length ≤ messageLimit) (hfuel : fragments.length < fuel)
    (hclear : s.connection.readProtection = none) :
    ∃ t transport reader buffer left,
      receiveFlight (fuel + 1 + n) s = receiveFlight (fuel + 1) t ∧
      receiveMessage fuel t = .ok m ((s.reading transport reader).buffering buffer) ∧
      Ahead P ((s.reading transport reader).buffering buffer) left messages ∧
      left.length ≤ fragments.length := by
  induction n generalizing s fragments with
  | zero =>
    obtain ⟨transport, reader, buffer, left, hreceive, hahead, hleft⟩ :=
      h.next hm hlimit hfuel hclear
    exact ⟨s, transport, reader, buffer, left, rfl, hreceive, hahead, hleft⟩
  | succ n ih =>
    have hrequest : IsFramed [0, 0, 0, 0] := rfl
    have hfuel' : fragments.length < fuel + 1 + n := by omega
    obtain ⟨transport, reader, buffer, left, hreceive, hahead, hleft⟩ :=
      h.next hrequest (by decide) hfuel' hclear
    obtain ⟨t, transport', reader', buffer', left', hflight, hmessage, hahead', hleft'⟩ :=
      ih hahead (hleft.trans_lt hfuel) hclear
    refine ⟨t, transport', reader', buffer', left', ?_, hmessage, hahead', hleft'.trans hleft⟩
    rw [← hflight]
    exact receiveFlight_request hreceive

def agreeing (f : ServerFlight) (c : Connection) : Connection :=
  { c with
    serverRandom := f.hello.random
    sessionId := f.hello.sessionId
    suite := some f.hello.suite
    serverKey := some f.key
    transcript := c.transcript.update f.answer.transcript
    state := .serverHelloDoneReceived
    handshakeBuffer := [] }

/-- A flight that is ahead is received to its end. -/
theorem receiveFlight_succeeds {f : ServerFlight} (h : Ahead P s fragments f.answer.messages)
    (hfuel : fragments.length + f.early + f.middle + f.late + 3 < fuel)
    (hclear : s.connection.readProtection = none)
    (hstate : s.connection.state = .clientHelloSent) (hsuite : f.hello.suite ∈ s.config.suites) :
    ∃ transport reader,
      receiveFlight fuel s = .ok () ((s.reading transport reader).updating (agreeing f)) ∧
      P transport reader := by
  obtain ⟨k, hk, rfl⟩ : ∃ k, fragments.length < k ∧
      fuel = k + 1 + f.late + 1 + f.middle + 1 + f.early :=
    ⟨fuel - f.early - f.middle - f.late - 3, by omega, by omega⟩
  -- The hello.
  obtain ⟨t, transport, reader, buffer, left, hflight, hmessage, hahead, hleft⟩ :=
    receiveFlight_requests f.early h f.isFramed_hello f.hello_length
      (show fragments.length < k + 1 + f.late + 1 + f.middle by omega) hclear
  have hhello := receiveFlight_hello hmessage
    (ServerHello.parse_message f.hello_writable f.length_hello_lt _) hstate f.version hsuite
    f.compression
  replace hahead := hahead.updating (neutral_welcomed f.hello f.hello.message) fun _ => rfl
  -- The certificate.
  obtain ⟨t', transport', reader', buffer', left', hflight', hmessage', hahead', hleft'⟩ :=
    receiveFlight_requests f.middle hahead f.isFramed_chain f.chain_length
      (show left.length < k + 1 + f.late by omega) hclear
  have hcertificate := receiveFlight_certificate hmessage'
    (CertificateChain.parse_message f.chain_writable _) rfl f.leaf_eq f.key_eq
  replace hahead' := hahead'.updating (neutral_certified f.key f.chain.message) fun _ => rfl
  -- The end of the hello, with which the last record is read.
  obtain ⟨t'', transport'', reader'', buffer'', left'', hflight'', hmessage'', hahead'', -⟩ :=
    receiveFlight_requests f.late hahead' (rfl : IsFramed [14, 0, 0, 0]) (by decide)
      (show left'.length < k by omega) hclear
  have hdone := receiveFlight_done hmessage'' rfl
  obtain ⟨hempty, hP⟩ := hahead''.done
  refine ⟨transport'', reader'', ?_, hP⟩
  have hbuffer : buffer'' = [] := hempty
  subst hbuffer
  calc
    _ = _ := hflight
    _ = _ := hhello
    _ = _ := hflight'
    _ = _ := hcertificate
    _ = _ := hflight''
    _ = _ := hdone
    _ = _ := by
      simp only [updating, buffering, reading, welcomed, selecting, certified, dismissed, agreeing,
        Sha256.update_update, ServerFlight.answer, Answer.transcript, List.append_assoc]

end

end TlsClient.Session
