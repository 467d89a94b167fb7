import TlsClient.Der.CertificateKey
import TlsClient.Session.Reassembly

namespace TlsClient.Session

open Network

variable {τ ρ : Type} [Transport τ] [RandomSource ρ]

def hostLimit : Nat := 255

def note (message : Bytes) : Action τ ρ Unit :=
  update fun c => { c with transcript := c.transcript.update message }

def sendMessage (kind : MessageType) (body : HandshakeBody) : Action τ ρ Unit := do
  let message := Handshake.toBytes ⟨⟨kind, 0⟩, body⟩
  note message
  transmitProtected .handshake message

def helloFor (config : Config) (random : HelloRandom) (host : String) : ClientHello :=
  ClientHello.withExtensions
    { version := .tls12
      random
      sessionId := .empty
      suites := config.suites
      compression := [.null]
      extensions := [] }
    host

def sendHello (now : Clock) (host : String) : Action τ ρ Unit := do
  if host.utf8ByteSize > hostLimit then fail (.tooLong host.utf8ByteSize hostLimit)
  else
    let random ← draw (HelloRandom.draw now)
    update ({ · with clientRandom := random })
    sendMessage .clientHello (.clientHello (helloFor (← get).config random host))
    advance .sendClientHello

def expect (kind : MessageType) (event : Event) : Action τ ρ Unit := do
  let state := (← current).state
  -- Whether the event may happen is asked first; it happens once the message was accepted.
  match state.next? event with
  | some _ => return ()
  | none => fail (.unexpectedHandshake kind state)

def acceptHello (hello : ServerHello) : Action τ ρ Unit := do
  if hello.version ≠ .tls12 then fail (.unsupportedVersion hello.version)
  else if hello.suite ∉ (← get).config.suites then fail (.unsupportedCipherSuite hello.suite.code)
  else if hello.compression ≠ .null then
    fail (.unexpectedMessage (.compression hello.compression))
  else
    update fun c => { c with
      serverRandom := hello.random
      sessionId := hello.sessionId
      suite := some hello.suite }

def acceptCertificate (chain : CertificateChain) : Action τ ρ Unit := do
  match chain.leaf? with
  | none => fail (.certificate .missing)
  | some leaf =>
    let key ← check (Der.certificateKey leaf)
    update ({ · with serverKey := some key })

def receiveFlight : (fuel : Nat) → Action τ ρ Unit
  | 0 => throw .unfinished
  | fuel + 1 => do
    let bytes ← receiveMessage fuel
    let message ← check ((Handshake.parse (← current).suite).parse bytes)
    let kind := message.header.kind
    -- A request to start over is no part of the transcript.
    if kind = .helloRequest then receiveFlight fuel
    else
      -- The bytes enter the transcript as they came, and before they are known to belong.
      note bytes
      match message.body with
      | .serverHello hello =>
        expect kind .serverHello
        acceptHello hello
        advance .serverHello
        receiveFlight fuel
      | .certificate chain =>
        expect kind .certificate
        acceptCertificate chain
        advance .certificate
        receiveFlight fuel
      | .serverHelloDone =>
        expect kind .serverHelloDone
        advance .serverHelloDone
      | _ => fail (.unexpectedHandshake kind (← current).state)

end TlsClient.Session
