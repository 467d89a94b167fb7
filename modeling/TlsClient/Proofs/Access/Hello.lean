import TlsClient.Proofs.Access.Certificates
import TlsClient.Proofs.Access.Digests
import TlsClient.Proofs.Access.Records
import TlsClient.Proofs.Wire.Messages

namespace TlsClient

namespace Handshake.Checked

def appendTo (output : Bytes) (m : Handshake) : Checked Bytes := do
  let start := output.length
  let written := output ++ [m.header.kind.code] ++ [0, 0, 0] ++ m.body.toBytes
  let length ← Checked.difference (← Checked.difference written.length start) HandshakeHeader.byteLength
  Checked.overwrite (start + 1) (start + HandshakeHeader.byteLength) (Bytes.ofNat 3 length) written

/-- The length is put into a header that was written just before. -/
theorem appendTo_eq (output : Bytes) (m : Handshake) : appendTo output m = .ok (m.appendTo output) := by
  have hlength : (output ++ [m.header.kind.code] ++ [0, 0, 0] ++ m.body.toBytes).length =
      output.length + HandshakeHeader.byteLength + m.body.toBytes.length := by
    simp only [List.length_append, List.length_cons, List.length_nil, HandshakeHeader.byteLength]
  rw [appendTo, Handshake.appendTo]
  generalize output ++ [m.header.kind.code] ++ [0, 0, 0] ++ m.body.toBytes = written at hlength
  have hbehind : output.length ≤ written.length := by omega
  have hheader : HandshakeHeader.byteLength ≤ written.length - output.length := by omega
  have hplace : output.length + HandshakeHeader.byteLength ≤ written.length := by omega
  have hthree (n : Nat) : (Bytes.ofNat 3 n).length =
      output.length + HandshakeHeader.byteLength - (output.length + 1) := by
    rw [Bytes.length_ofNat, HandshakeHeader.byteLength]
    omega
  rw [Checked.difference_eq hbehind, Checked.ok_bind, Checked.difference_eq hheader, Checked.ok_bind,
    Checked.overwrite_eq (Nat.add_le_add_left (by decide) _) hplace (hthree _)]

end Handshake.Checked

namespace ClientHello.Checked

def cutExtensions (data : Bytes) :
    List (ExtensionType × Nat × Nat) → List Extension → Checked (List Extension)
  | [], held => return held
  | (kind, start, stop) :: ranges, held => do
    let content ← Checked.slice start stop data
    let held ← Checked.extend extensionPlaces held [⟨kind, content⟩]
    cutExtensions data ranges held

def rangePlaces : Nat := 4

def withExtensions (h : ClientHello) (host : String) : Checked ClientHello := do
  let name : Bytes := if host.isEmpty then [] else (ServerName.mk host).toBytes
  let data := name ++ SignatureAlgorithms.rsaSha256.toBytes
  let ranges ←
    if host.isEmpty then pure []
    else Checked.extend rangePlaces [] [(.serverName, 0, name.length)]
  let ranges ← Checked.extend rangePlaces ranges [(.signatureAlgorithms, name.length, data.length)]
  return { h with extensions := ← cutExtensions data ranges h.extensions }

/-- Two more extensions find a place in a hello that leaves room for them. -/
theorem withExtensions_eq (h : ClientHello) (host : String)
    (hroom : h.extensions.length + 2 ≤ extensionPlaces) :
    withExtensions h host = .ok (h.withExtensions host) := by
  unfold withExtensions ClientHello.withExtensions extensionsFor
  dsimp only
  generalize (ServerName.mk host).toBytes = name
  generalize SignatureAlgorithms.rsaSha256.toBytes = schemes
  cases host.isEmpty with
  | true =>
    simp only [if_true, Checked.pure_eq, Checked.ok_bind]
    rw [Checked.extend_singleton_eq (by decide), Checked.ok_bind]
    simp only [List.nil_append, cutExtensions, List.length_nil]
    rw [Checked.slice_length (Nat.zero_le _), Checked.ok_bind, Checked.extend_singleton_eq (by omega)]
    rfl
  | false =>
    have hname : name.length ≤ (name ++ schemes).length := by
      rw [List.length_append]
      exact Nat.le_add_right _ _
    simp only [Bool.false_eq_true, if_false]
    rw [Checked.extend_singleton_eq (by decide), Checked.ok_bind,
      Checked.extend_singleton_eq (by simp [rangePlaces]), Checked.ok_bind]
    simp only [List.nil_append, List.singleton_append, cutExtensions]
    rw [Checked.slice_zero hname, Checked.ok_bind, Checked.extend_singleton_eq (by omega),
      Checked.ok_bind, Checked.slice_length hname, Checked.ok_bind,
      Checked.extend_singleton_eq (by rw [List.length_append, List.length_singleton]; omega),
      Checked.ok_bind, List.take_left, List.drop_left, List.append_assoc]
    rfl

end ClientHello.Checked

namespace Session.Checked

open Network Wire

variable {τ ρ α : Type}

def note (message : Bytes) : CheckedAction τ ρ Unit := do
  let c ← lift current
  let transcript ← access (Sha256.Checked.update c.transcript message)
  lift (update ({ · with transcript }))

@[simp] theorem note_eq (message : Bytes) :
    (note message : CheckedAction τ ρ Unit) = lift (Session.note message) := by
  funext s
  show (access (Sha256.Checked.update s.connection.transcript message) >>= _ :
    CheckedAction τ ρ Unit) s = _
  rw [Sha256.Checked.update_eq]
  rfl

def helloFor (config : Config) (random : HelloRandom) (host : String) : Checked ClientHello := do
  let suites ← Checked.extend ClientHello.suitePlaces [] config.suites
  let compression ← Checked.extend ClientHello.compressionPlaces [] [.null]
  ClientHello.Checked.withExtensions
    { version := .tls12
      random
      sessionId := .empty
      suites
      compression
      extensions := [] }
    host

/-- The client's hello has its two extensions at most, so its list has room for them. -/
theorem helloFor_eq (config : Config) (random : HelloRandom) (host : String) :
    helloFor config random host = .ok (Session.helloFor config random host) := by
  have hsuites : ([] : List CipherSuite).length + config.suites.length ≤ ClientHello.suitePlaces := by
    have hlimit := config.length_suites_le
    rw [List.length_nil, Nat.zero_add]
    exact hlimit.trans (by decide)
  rw [helloFor, Checked.extend_eq hsuites, Checked.ok_bind, Checked.extend_singleton_eq (by decide),
    Checked.ok_bind]
  exact ClientHello.Checked.withExtensions_eq _ host (Nat.le_add_left 2 14)

section

variable [Transport τ] [RandomSource ρ]

def sendMessage (kind : MessageType) (body : HandshakeBody) : CheckedAction τ ρ Unit := do
  let message ← access (Handshake.Checked.appendTo [] ⟨⟨kind, 0⟩, body⟩)
  note message
  transmitProtected .handshake message

@[simp] theorem sendMessage_eq (kind : MessageType) (body : HandshakeBody) :
    (sendMessage kind body : CheckedAction τ ρ Unit) = lift (Session.sendMessage kind body) := by
  simp only [sendMessage, Session.sendMessage, Handshake.Checked.appendTo_eq, access_ok, pure_bind,
    note_eq, transmitProtected_eq, lift_bind, Handshake.toBytes]

def sendHello (now : Clock) (host : String) : CheckedAction τ ρ Unit := do
  if host.utf8ByteSize > hostLimit then lift (fail (.tooLong host.utf8ByteSize hostLimit))
  else
    let random ← lift (Session.draw (HelloRandom.draw now))
    lift (update ({ · with clientRandom := random }))
    let hello ← access (helloFor (← get).config random host)
    sendMessage .clientHello (.clientHello hello)
    lift (advance .sendClientHello)

@[simp] theorem sendHello_eq (now : Clock) (host : String) :
    (sendHello now host : CheckedAction τ ρ Unit) = lift (Session.sendHello now host) := by
  simp only [sendHello, Session.sendHello, helloFor_eq, access_ok, pure_bind, sendMessage_eq,
    lift_ite, lift_bind, lift_get]

end

def checkAnnounced (buffered : Bytes) : CheckedAction τ ρ Unit := do
  match ← access (HandshakeHeader.Checked.parse buffered).run with
  | .error _ => return ()
  | .ok (header, _) =>
    let length := HandshakeHeader.byteLength + header.length
    if length > messageLimit then lift (fail (.tooLong length messageLimit)) else return ()

@[simp] theorem checkAnnounced_eq (buffered : Bytes) :
    (checkAnnounced buffered : CheckedAction τ ρ Unit) = lift (Session.checkAnnounced buffered) := by
  rw [checkAnnounced, HandshakeHeader.Checked.parse_eq, Session.checkAnnounced]
  show (match HandshakeHeader.parse buffered with | .error _ => _ | .ok (header, _) => _ :
    CheckedAction τ ρ Unit) = _
  cases HandshakeHeader.parse buffered with
  | error e => rfl
  | ok parsed => simp only [lift_ite, lift_pure]

section

variable [Transport τ]

def receiveMessage : (fuel : Nat) → CheckedAction τ ρ Bytes
  | 0 => lift (throw .unfinished)
  | fuel + 1 => do
    let buffered := (← lift current).handshakeBuffer
    match ← access (Handshake.Checked.completeLength buffered) with
    | some length =>
      let (message, rest) ← access (Checked.splitAt length buffered)
      lift (update ({ · with handshakeBuffer := rest }))
      return message
    | none =>
      checkAnnounced buffered
      let record ← receive
      match record.contentType with
      | .handshake =>
        lift (update fun c => { c with handshakeBuffer := c.handshakeBuffer ++ record.fragment })
        receiveMessage fuel
      | .alert => heed record.fragment
      | other => lift (fail (.unexpectedContentType other))

@[simp] theorem receiveMessage_eq (fuel : Nat) :
    (receiveMessage fuel : CheckedAction τ ρ Bytes) = lift (Session.receiveMessage fuel) := by
  -- Each pass of the loop has the same accesses as the first one.
  induction fuel with
  | zero => rfl
  | succ fuel ih =>
    rw [receiveMessage, Session.receiveMessage, lift_bind]
    refine bind_congr fun c => ?_
    dsimp only
    rw [Handshake.Checked.completeLength_eq, access_ok, pure_bind]
    cases hcomplete : Handshake.completeLength c.handshakeBuffer with
    | some length =>
      -- A complete message ends within the buffer, so it can be cut off.
      obtain ⟨-, -, -, -, hle⟩ := Handshake.completeLength_eq_some_iff.1 hcomplete
      dsimp only
      rw [Checked.splitAt_eq hle, access_ok, pure_bind, lift_bind]
      rfl
    | none =>
      simp only [checkAnnounced_eq, receive_eq, lift_bind]
      refine bind_congr fun _ => bind_congr fun record => ?_
      cases record.contentType with
      | handshake => simp only [ih, lift_bind]
      | alert => exact heed_eq record.fragment
      | _ => rfl

end

def acceptCertificate (chain : CertificateChain) : CheckedAction τ ρ Unit := do
  match chain.leaf? with
  | none => lift (fail (.certificate .missing))
  | some leaf =>
    let key ← check (Der.Checked.certificateKey leaf)
    lift (update ({ · with serverKey := some key }))

@[simp] theorem acceptCertificate_eq (chain : CertificateChain) :
    (acceptCertificate chain : CheckedAction τ ρ Unit) = lift (Session.acceptCertificate chain) := by
  rw [acceptCertificate, Session.acceptCertificate]
  cases chain.leaf? with
  | none => rfl
  | some leaf => simp only [Der.Checked.certificateKey_eq, check_outcome, lift_bind]

def parseMessage (suite : Option CipherSuite) (bytes : Bytes) : CheckedAction τ ρ Handshake :=
  check (Parser.Checked.parse (Handshake.Checked.parse suite) bytes)

@[simp] theorem parseMessage_eq (suite : Option CipherSuite) (bytes : Bytes) :
    (parseMessage suite bytes : CheckedAction τ ρ Handshake) =
      lift (Session.check ((Handshake.parse suite).parse bytes)) := by
  rw [parseMessage, Handshake.Checked.parse_eq, Parser.Checked.parse_lift, check_outcome]

section

variable [Transport τ]

def receiveFlight : (fuel : Nat) → CheckedAction τ ρ Unit
  | 0 => lift (throw .unfinished)
  | fuel + 1 => do
    let bytes ← receiveMessage fuel
    let message ← parseMessage (← lift current).suite bytes
    let kind := message.header.kind
    if kind = .helloRequest then receiveFlight fuel
    else
      note bytes
      match message.body with
      | .serverHello hello =>
        lift (expect kind .serverHello)
        lift (acceptHello hello)
        lift (advance .serverHello)
        receiveFlight fuel
      | .certificate chain =>
        lift (expect kind .certificate)
        acceptCertificate chain
        lift (advance .certificate)
        receiveFlight fuel
      | .serverHelloDone =>
        lift (expect kind .serverHelloDone)
        lift (advance .serverHelloDone)
      | _ => lift (do fail (.unexpectedHandshake kind (← current).state))

@[simp] theorem receiveFlight_eq (fuel : Nat) :
    (receiveFlight fuel : CheckedAction τ ρ Unit) = lift (Session.receiveFlight fuel) := by
  induction fuel with
  | zero => rfl
  | succ fuel ih =>
    simp only [receiveFlight, Session.receiveFlight, lift_bind, receiveMessage_eq, parseMessage_eq]
    refine bind_congr fun bytes => bind_congr fun c => bind_congr fun message => ?_
    rw [lift_ite, ih]
    by_cases hrequest : message.header.kind = .helloRequest
    · rw [if_pos hrequest, if_pos hrequest]
    · rw [if_neg hrequest, if_neg hrequest, lift_bind, note_eq]
      refine bind_congr fun _ => ?_
      cases message.body with
      | certificate chain => simp only [acceptCertificate_eq, lift_bind]
      | serverHello hello => simp only [lift_bind]
      | serverHelloDone => simp only [lift_bind]
      | _ => rfl

end

end Session.Checked
end TlsClient
