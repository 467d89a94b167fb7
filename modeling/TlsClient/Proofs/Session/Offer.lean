import TlsClient.Proofs.Session.Completion
import TlsClient.Proofs.Session.Handshake
import TlsClient.Proofs.Session.Translation
import TlsClient.Proofs.Wire.ClientHello
import TlsClient.Proofs.Wire.ExtensionData

namespace TlsClient

open Network Wire.Parser

theorem CipherSuite.canonical_of_supported {s : CipherSuite} (h : s.supported = true) :
    s.Canonical := by
  cases s with
  | unknown code => cases h
  | _ => rfl

namespace ClientHello

/-- Two extensions at most, and the second is of one length. -/
theorem fits_extensionsFor {host : String} (h : host.utf8ByteSize ≤ Session.hostLimit) :
    Extension.Fits extensionPlaces (extensionsFor host) := by
  have hlimit : Session.hostLimit = 255 := rfl
  have hlength := length_extensionsFor_le host
  rw [Extension.listToBytes, List.length_append, Bytes.length_ofNat] at hlength
  refine ⟨?_, ?_, by omega⟩
  · rw [extensionsFor]
    split <;> simp [extensionPlaces]
  · intro e he
    rw [extensionsFor] at he
    split at he
    · obtain rfl := List.mem_singleton.1 he
      rfl
    · rcases List.mem_cons.1 he with rfl | he
      · rfl
      · obtain rfl := List.mem_singleton.1 he
        rfl

/-- What a hello says that goes out under a configuration to a host. -/
structure Announces (config : Config) (random : HelloRandom) (host : String) (hello : ClientHello) :
    Prop where
  version : hello.version = .tls12
  random : hello.random = random
  sessionId : hello.sessionId = .empty
  suites : hello.suites = config.suites
  compression : hello.compression = [.null]
  /-- The server's name stands first, if there is one, and the one scheme of signatures behind it. -/
  extensions : ∃ name schemes scheme,
    hello.extensions = (if host = "" then [] else [⟨.serverName, name⟩]) ++
      [⟨.signatureAlgorithms, schemes⟩] ∧
    ServerName.parse name = .ok (⟨host⟩, []) ∧
    SignatureAlgorithms.parse schemes = .ok (⟨[scheme]⟩, []) ∧ scheme.code = 0x0401
  serverName : hello.serverName = if host = "" then none else some host

/-- The host is read back from the extension, in the bytes that it is written with. -/
theorem parse_serverName {host : String} (h : host.utf8ByteSize ≤ Session.hostLimit) :
    ServerName.parse (ServerName.mk host).toBytes = .ok (⟨host⟩, []) := by
  have hlength : (ServerName.mk host).hostBytes.length < 65536 :=
    Nat.lt_of_le_of_lt h (by decide)
  have hparse := ServerName.parse_toBytes_append hlength []
  rwa [List.append_nil] at hparse

end ClientHello

/-- What was sent before makes no difference to a transport. -/
theorem Network.Transport.Commutes.preceded {τ : Type} [Transport τ] (before : List Bytes) :
    Transport.Commutes fun t : Recorded τ => { t with sent := before ++ t.sent } where
  connect _ _ := rfl
  send t id bs := by
    simp only [Transport.send, Recorded.send, List.append_assoc]
  recv t id limit := by
    simp only [Transport.recv, Recorded.recv]
    rcases Transport.recv t.inner id limit with ⟨e | bs, u⟩ <;> rfl
  isClosed _ _ := rfl
  close _ _ := rfl
  poll _ := rfl

namespace Session

open ClientHello

section
variable (config : Config) (random : HelloRandom) {host : String}

/-- With a host within the limit the hello is one that is read back. -/
theorem helloFor_writable (h : host.utf8ByteSize ≤ hostLimit) :
    (helloFor config random host).Writable where
  version := rfl
  suites_ne_nil := config.suites_ne_nil
  length_suites_le := Nat.le_trans config.length_suites_le (by decide)
  suites s hs := CipherSuite.canonical_of_supported (config.supported_of_mem s hs)
  compression_ne_nil := List.cons_ne_nil _ _
  length_compression_le := show [CompressionMethod.null].length ≤ compressionPlaces by decide
  compression m hm := by
    obtain rfl := List.mem_singleton.1 hm
    rfl
  extensions := fits_extensionsFor h

theorem helloFor_announces (h : host.utf8ByteSize ≤ hostLimit) :
    Announces config random host (helloFor config random host) := by
  have hextensions : (helloFor config random host).extensions = (if host = "" then [] else
      [⟨.serverName, (ServerName.mk host).toBytes⟩]) ++
        [⟨.signatureAlgorithms, SignatureAlgorithms.rsaSha256.toBytes⟩] := by
    have hempty : host.isEmpty = true ↔ host = "" := String.isEmpty_iff
    change extensionsFor host = _
    simp only [extensionsFor, hempty]
  refine ⟨rfl, rfl, rfl, rfl, rfl, ⟨_, _, .rsaSha256, hextensions, parse_serverName h, rfl, rfl⟩, ?_⟩
  rw [serverName, hextensions]
  by_cases hhost : host = ""
  · rw [if_pos hhost, if_pos hhost]
    rfl
  · rw [if_neg hhost, if_neg hhost, List.cons_append, List.find?_cons_of_pos rfl]
    dsimp only
    rw [parse_serverName h]

/-- The message is read off the record that carries it, and the hello off the message. -/
theorem parse_helloMessage (h : host.utf8ByteSize ≤ hostLimit) (suite : Option CipherSuite) :
    Handshake.parse suite (helloMessage config random host) =
      .ok (⟨⟨.clientHello, (helloFor config random host).toBytes.length⟩,
        .clientHello (helloFor config random host)⟩, []) := by
  have hlength : (helloFor config random host).toBytes.length < 2 ^ 24 := by
    have hmessage : 4 + (helloFor config random host).toBytes.length ≤ Record.maxPlaintext :=
      (Handshake.length_toBytes _).symm.trans_le (length_helloMessage_le config random h)
    have hmax : Record.maxPlaintext = 16384 := rfl
    omega
  have hparse : ClientHello.parse (helloFor config random host).toBytes =
      .ok (helloFor config random host, []) :=
    ClientHello.parse_eq_ok_iff.2 ⟨helloFor_writable config random h, .inl rfl⟩
  exact Handshake.parse_toBytes rfl hlength (map_eq_ok_iff.2 ⟨_, hparse, rfl⟩)

/-- The record of the hello is read back to its end. -/
theorem parse_helloRecord (h : host.utf8ByteSize ≤ hostLimit) :
    Record.parse (inClear .handshake (helloMessage config random host)).toBytes =
      .ok (⟨.handshake, .tls12, helloMessage config random host⟩, []) := by
  refine Record.parse_eq_ok_iff.2 ⟨rfl, rfl, ?_, (List.append_nil _).symm⟩
  exact Nat.le_trans (length_helloMessage_le config random h) (by decide)

end

variable {τ ρ α : Type}

/-! ### What was sent stays sent -/

/-- From `s` to `t` nothing was taken back that had been sent. -/
def Adds (s t : Session (Recorded τ) ρ) : Prop :=
  s.transport.sent <+: t.transport.sent

def Begins (s t : Session (Recorded τ) ρ) (r : Record) : Prop :=
  s.transport.sent ++ [r.toBytes] <+: t.transport.sent

theorem Sends.begins {s t : Session (Recorded τ) ρ} {r : Record} (h : Sends s t [r]) :
    Begins s t r := by
  rw [Begins, h]
  exact List.prefix_refl _

/-- What was sent first stays first, whatever is sent later. -/
theorem Begins.trans {s t u : Session (Recorded τ) ρ} {r : Record} (h : Begins s t r)
    (hmore : Adds t u) : Begins s u r :=
  List.IsPrefix.trans h hmore

variable [Transport τ]

def preceded (before : List Bytes) : Translation (Recorded τ) (Recorded τ) where
  transport t := { t with sent := before ++ t.sent }
  commutes := .preceded before
  lastAlert alert := alert
  lastAlert_some _ := rfl

/-- An action that goes along with any record only adds to it. -/
theorem Follows.adds {a : Action (Recorded τ) ρ α} (h : ∀ before, Follows (preceded before) a a)
    (s : Session (Recorded τ) ρ) : Ends a s (fun _ => Adds s) fun _ => Adds s := by
  let silent : Session (Recorded τ) ρ := { s with transport := { s.transport with sent := [] } }
  have hs := h s.transport.sent silent
  have hsame : (preceded s.transport.sent).apply silent = s := by
    simp only [Translation.apply, preceded, silent, List.append_nil]
  rw [hsame] at hs
  unfold Ends
  rw [hs]
  -- What was sent from silence on stands behind what had been sent.
  cases a silent with
  | ok x t => exact List.prefix_append _ _
  | error e t => exact List.prefix_append _ _

/-! ### From the hello to the keys -/

variable [RandomSource ρ] {s t : Session (Recorded τ) ρ} {now : Clock} {host : String}

/-- The hello is sent, and its random value is kept. -/
theorem sendHello_offers (hhost : host.utf8ByteSize ≤ hostLimit)
    (hlink : s.connection.link.isSome = true) (hstate : s.connection.state = .init)
    (hclear : s.connection.writeProtection = none) :
    Ends (sendHello now host) s
      (fun _ t => Sends s t [inClear .handshake
          (helloMessage s.config (HelloRandom.draw now s.random).1 host)] ∧
        t.connection = (s.greeting now host).connection)
      (fun _ t => Sends s t [inClear .handshake
        (helloMessage s.config (HelloRandom.draw now s.random).1 host)]) := by
  rw [sendHello, if_neg (Nat.not_lt.2 hhost)]
  refine Ends.bind_draw (Ends.bind_update (Ends.bind_get ?_))
  refine Ends.bind_mono (sendMessage_ends .clientHello _ _ rfl) ?_ ?_
  · intro e t h
    rcases h with h | h
    · obtain ⟨-, inner, rfl⟩ := h.eq_clear hclear
      rfl
    · -- There is a connection, the message is short, and nothing is sealed yet.
      rcases h.reason with hnone | hlong | ⟨hsome, -⟩
      · rw [show s.connection.link = none from hnone] at hlink
        cases hlink
      · exact absurd (length_helloMessage_le _ _ hhost) (Nat.not_le.2 hlong)
      · rw [show s.connection.writeProtection.isSome = false by rw [hclear]; rfl] at hsome
        cases hsome
  · intro _ t h
    obtain ⟨-, inner, rfl⟩ := h.eq_clear hclear
    refine ends_advance (fun state hnext => ⟨rfl, ?_⟩) fun e => rfl
    change s.connection.state.next? .sendClientHello = some state at hnext
    rw [hstate] at hnext
    obtain rfl : .clientHelloSent = state := Option.some.inj hnext
    rfl

def linking (s : Session (Recorded τ) ρ) (inner : τ) (id : LinkId) : Session (Recorded τ) ρ :=
  { s with
    transport := { s.transport with inner }
    connection := { s.connection with link := some id } }

section
variable {peer : Endpoint} {id : LinkId} {inner : τ}

omit [RandomSource ρ] in
/-- A handshake whose transport connects goes on with the hello. -/
theorem bind_connect (hconnect : Transport.connect s.transport.inner peer = (.ok id, inner))
    (a : Action (Recorded τ) ρ α) :
    (do
      let id ← operate (Transport.connect · peer)
      update ({ · with link := some id })
      a : Action (Recorded τ) ρ α) s = a (s.linking inner id) := by
  have hoperate : operate (Transport.connect · peer) s =
      .ok id { s with transport := { s.transport with inner } } := by
    rw [operate]
    simp only [Transport.connect, hconnect]
  exact (bind_of_ok hoperate).trans (bind_of_ok rfl)

variable (hfresh : s.connection = .fresh)
  (hconnect : Transport.connect s.transport.inner peer = (.ok id, inner))

include hfresh in
/-- Whether or not the transport accepts it, the hello is offered to it in one record. -/
theorem hello_offered (hhost : host.utf8ByteSize ≤ hostLimit) :
    Ends (sendHello now host) (s.linking inner id)
      (fun _ t => Sends s t [inClear .handshake
          (helloMessage s.config (HelloRandom.draw now s.random).1 host)] ∧
        t.connection = ((s.linking inner id).greeting now host).connection)
      (fun _ t => Sends s t [inClear .handshake
        (helloMessage s.config (HelloRandom.draw now s.random).1 host)]) := by
  refine sendHello_offers (s := s.linking inner id) hhost rfl ?_ ?_
  · change s.connection.state = .init
    rw [hfresh]
    rfl
  · change s.connection.writeProtection = none
    rw [hfresh]
    rfl

include hfresh hconnect in
/-- The hello is the first that is sent, however the handshake goes on. -/
theorem handshake_begins (fuel : Nat) (hhost : host.utf8ByteSize ≤ hostLimit) :
    Begins s (after (handshake fuel now host peer) s) (inClear .handshake
      (helloMessage s.config (HelloRandom.draw now s.random).1 host)) := by
  have hstate : s.connection.state = .init := by
    rw [hfresh]
    rfl
  refine Ends.after (P := fun t => Begins s t _) (Ends.bind_current ?_)
  rw [if_pos hstate]
  apply orFail_ends
  refine Ends.of_eq (bind_connect hconnect _) ?_
  refine Ends.bind_mono (hello_offered hfresh hhost) (fun _ _ h => h.begins) ?_
  rintro _ t ⟨h, -⟩
  -- Whatever comes after the hello, it is only added to what was sent.
  refine (Follows.adds (fun before => ?_) t).mono (fun _ _ => h.begins.trans) fun _ _ => h.begins.trans
  refine Follows.bind (.receiveFlight fuel) fun _ => ?_
  refine Follows.bind (.sendKeyExchange fuel) fun preMaster => ?_
  refine Follows.bind (.deriveKeys preMaster) fun _ => ?_
  exact Follows.bind .sendChangeCipherSpec fun _ => Follows.bind .sendFinished fun _ =>
    .receiveEnd fuel

include hconnect in
/-- A host whose name is too long is the end of it before anything is sent. -/
theorem handshake_tooLong (hstate : s.connection.state = .init) (fuel : Nat)
    (hhost : hostLimit < host.utf8ByteSize) :
    handshake fuel now host peer s =
      .error (.failed (.tooLong host.utf8ByteSize hostLimit)) { s.linking inner id with
        connection := (s.linking inner id).connection.failed } := by
  have hnegotiate : negotiate fuel now host peer s =
      .error (.failed (.tooLong host.utf8ByteSize hostLimit)) (s.linking inner id) := by
    rw [negotiate, bind_connect hconnect]
    apply bind_of_error
    rw [sendHello, if_pos hhost]
    rfl
  rw [handshake]
  apply (bind_of_ok (rfl : current s = .ok s.connection s)).trans
  rw [if_pos hstate, orFail, hnegotiate]

include hfresh hconnect in
/-- The random value of the hello is still there when the server has been listened to. -/
theorem listen_keeps (fuel : Nat) (hhost : host.utf8ByteSize ≤ hostLimit) :
    Ends (listen fuel now host peer) s
      (fun _ t => t.connection.clientRandom = (HelloRandom.draw now s.random).1 ∧
        t.connection.writeProtection = none)
      fun _ _ => True := by
  refine Ends.of_eq (bind_connect hconnect _) ?_
  refine Ends.bind_mono (hello_offered hfresh hhost) (fun _ _ _ => trivial) ?_
  rintro _ t ⟨-, ht⟩
  have hstate : t.connection.state = .clientHelloSent := by
    rw [ht]
    rfl
  refine (receiveFlight_ends fuel t hstate).mono ?_ fun _ _ _ => trivial
  rintro _ u ⟨_, _, _, _, hears, -⟩
  obtain ⟨_, _, _, _, _, _, _, _, _, _, _, _, rfl⟩ := hears.listens
  dsimp only
  rw [ht]
  exact ⟨rfl, congrArg Connection.writeProtection hfresh⟩

end

/-- The keys of the connection `d` come from the secret, from the random value of the client's hello
and from the one that the server has sent to `c`. -/
def KeysFrom (preMaster : Bytes) (random : HelloRandom) (c d : Connection) : Prop :=
  ∃ suite block keys,
    Prf.masterSecret preMaster random.toBytes c.serverRandom.toBytes = .ok d.masterSecret ∧
    Prf.keyBlock d.masterSecret random.toBytes c.serverRandom.toBytes suite.keyBlockLength =
      .ok block ∧
    KeyMaterial.ofKeyBlock suite block = .ok keys ∧
    d.writeProtection = some (Protection.ofKeys suite keys .client) ∧
    d.pendingReadProtection = some (Protection.ofKeys suite keys .server)

omit [Transport τ] [RandomSource ρ] in
/-- The keys come from the random values that the connection has. -/
theorem keysFrom_of_deriveKeys {preMaster : Bytes} (h : deriveKeys preMaster s = .ok () t) :
    KeysFrom preMaster s.connection.clientRandom s.connection t.connection := by
  obtain ⟨suite, keys, master, hmaster, ⟨-, block, hblock, hkeys⟩, rfl⟩ :=
    (deriveKeys_ends preMaster s).of_ok h
  exact ⟨suite, block, keys, hmaster, hblock, hkeys, rfl, rfl⟩

/-- The key exchange leaves the random value of the hello alone. -/
theorem clientRandom_of_sendKeyExchange {fuel : Nat} {preMaster : Bytes}
    (hclear : s.connection.writeProtection = none)
    (h : sendKeyExchange fuel s = .ok preMaster t) :
    t.connection.clientRandom = s.connection.clientRandom := by
  obtain ⟨_, _, _, _, _, -, -, -, -, -, rfl⟩ := (sendKeyExchange_ends fuel s hclear).of_ok h
  rfl

/-- A handshake listens to the server, exchanges a secret, derives the keys from it and ends the
handshake under them. If its transport connects and the host's name is short enough, then the first
that is sent is one record with one message with one hello, each of them read to its end, and the hello
announces what was configured: the clock's time and random bytes that the keys are derived with later,
no session to resume, the suites in order, no compression, and as extensions the host's name, unless it
is empty, and the code 0x0401. If the name is too long, then nothing is sent and the session is left in
its error state. -/
theorem hello_announces {s : Session (Recorded τ) ρ} (hs : Reachable s)
    (hstate : s.connection.state = .init) {peer : Endpoint} {id : LinkId} {inner : τ}
    (hconnect : Transport.connect s.transport.inner peer = (.ok id, inner)) (fuel : Nat)
    (now : Clock) (host : String) :
    (negotiate fuel now host peer : Action (Recorded τ) ρ Unit) = (do
      listen fuel now host peer
      let preMaster ← sendKeyExchange fuel
      deriveKeys preMaster
      sendChangeCipherSpec
      sendFinished
      receiveEnd fuel) ∧
    (host.utf8ByteSize ≤ 255 → ∃ first message hello more,
      (after (handshake fuel now host peer) s).transport.sent = s.transport.sent ++ first :: more ∧
      Record.parse first = .ok (⟨.handshake, .tls12, message⟩, []) ∧
      (∀ suite, Handshake.parse suite message =
        .ok (⟨⟨.clientHello, hello.toBytes.length⟩, .clientHello hello⟩, [])) ∧
      Announces s.config (HelloRandom.draw now s.random).1 host hello ∧
      ∀ t, listen fuel now host peer s = .ok () t → t.connection.clientRandom = hello.random ∧
        ∀ preMaster u v, sendKeyExchange fuel t = .ok preMaster u →
          deriveKeys preMaster u = .ok () v →
            KeysFrom preMaster hello.random u.connection v.connection) ∧
    (255 < host.utf8ByteSize → ∃ t, handshake fuel now host peer s =
        .error (.failed (.tooLong host.utf8ByteSize 255)) t ∧
      t.transport.sent = s.transport.sent ∧ t.connection.state = .error) := by
  have hfresh := hs.connection_eq_fresh hstate
  refine ⟨by simp only [negotiate, listen, bind_assoc], fun hhost => ?_, fun hhost => ?_⟩
  · obtain ⟨more, hmore⟩ : Begins s (after (handshake fuel now host peer) s) _ :=
      handshake_begins hfresh hconnect fuel hhost
    refine ⟨_, _, _, more, hmore.symm.trans (List.append_assoc _ _ _),
      parse_helloRecord _ _ hhost, parse_helloMessage _ _ hhost, helloFor_announces _ _ hhost, ?_⟩
    intro t ht
    obtain ⟨hrandom, hclear⟩ := (listen_keeps hfresh hconnect fuel hhost).of_ok ht
    refine ⟨hrandom, fun preMaster u v hu hv => ?_⟩
    have hkeys := keysFrom_of_deriveKeys hv
    rw [clientRandom_of_sendKeyExchange hclear hu, hrandom] at hkeys
    exact hkeys
  · exact ⟨_, handshake_tooLong hconnect hstate fuel hhost, rfl, rfl⟩

open Simulation in
/-- The recorded server's client derives its keys with the random value of the hello that it sends. It
tells the name of a host that has one, and it says nothing to a host with a name of 256 bytes. -/
theorem sample_announced : Reachable Tape.client ∧
    (∃ hello, Announces Tape.client.config hello.random "" hello ∧ ∃ t,
      sendKeyExchange 100 Tape.answered = .ok Tape.preMaster t ∧
      KeysFrom Tape.preMaster hello.random t.connection (Tape.keyed Tape.answered).connection) ∧
    (∃ first message hello more,
      (after (handshake 100 ⟨0, 0⟩ "süd" .unspecified) Tape.client).transport.sent =
        first :: more ∧
      Record.parse first = .ok (⟨.handshake, .tls12, message⟩, []) ∧
      (∀ suite, Handshake.parse suite message =
        .ok (⟨⟨.clientHello, hello.toBytes.length⟩, .clientHello hello⟩, [])) ∧
      hello.serverName = some "süd") ∧
    ∃ t, handshake 100 ⟨0, 0⟩ (String.ofList (List.replicate 256 'a')) .unspecified Tape.client =
        .error (.failed (.tooLong 256 255)) t ∧ t.transport.sent = [] := by
  have hstart : Reachable Tape.client := .start ..
  have hconnect : Transport.connect Tape.client.transport.inner .unspecified =
      (.ok ⟨7⟩, Tape.sample) := rfl
  have hlong : (String.ofList (List.replicate 256 'a')).utf8ByteSize = 256 := by decide +kernel
  obtain ⟨-, hunnamed, -⟩ := hello_announces hstart rfl hconnect 100 ⟨0, 0⟩ ""
  obtain ⟨-, hnamed, -⟩ := hello_announces hstart rfl hconnect 100 ⟨0, 0⟩ "süd"
  obtain ⟨-, -, hrefused⟩ := hello_announces hstart rfl hconnect 100 ⟨0, 0⟩
    (String.ofList (List.replicate 256 'a'))
  obtain ⟨_, _, hello, _, -, -, -, hannounces, hkeys⟩ := hunnamed (by decide)
  obtain ⟨first, message, hello', more, hsent, hrecord, hmessage, hannounces', -⟩ :=
    hnamed (by decide)
  obtain ⟨t, hexchange, hderive⟩ := Tape.exists_keyed Tape.isAnswered_answered
  obtain ⟨u, herror, hnothing, -⟩ := hrefused (by rw [hlong]; decide)
  refine ⟨hstart, ⟨hello, ?_, t, hexchange, ?_⟩, ⟨first, message, hello', more, hsent, hrecord,
    hmessage, hannounces'.serverName⟩, u, ?_, hnothing⟩
  · rw [hannounces.random]
    exact hannounces
  · exact (hkeys _ Tape.listen_client).2 _ _ _ hexchange hderive
  · rw [hlong] at herror
    exact herror

end Session
end TlsClient
