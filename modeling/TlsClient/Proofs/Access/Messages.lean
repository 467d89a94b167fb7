import TlsClient.Message.Alert
import TlsClient.Message.Handshake
import TlsClient.Message.Record
import TlsClient.Proofs.Access.Parsing

namespace TlsClient

open Wire

namespace RecordHeader.Checked

def parse : CheckedParser RecordHeader := do
  let contentType ← ContentType.ofCode <$> Parser.Checked.byte
  let version ← ProtocolVersion.ofCode <$> Parser.Checked.word16
  let length ← Parser.Checked.number 2
  return { contentType, version, length }

@[simp] theorem parse_eq : parse = Parser.lift RecordHeader.parse := by
  simp [parse, RecordHeader.parse, ContentType.parse, ProtocolVersion.parse]

end RecordHeader.Checked

namespace HandshakeHeader.Checked

def parse : CheckedParser HandshakeHeader := do
  let kind ← MessageType.ofCode <$> Parser.Checked.byte
  let length ← Parser.Checked.number 3
  return ⟨kind, length⟩

@[simp] theorem parse_eq : parse = Parser.lift HandshakeHeader.parse := by
  simp [parse, HandshakeHeader.parse, MessageType.parse]

end HandshakeHeader.Checked

namespace Alert.Checked

def parse : CheckedParser Alert := do
  let level ← Parser.Checked.byte
  let description ← Parser.Checked.byte
  return ⟨.ofCode level, .ofCode description⟩

@[simp] theorem parse_eq : parse = Parser.lift Alert.parse := by
  simp [parse, Alert.parse]

end Alert.Checked

namespace HelloRandom.Checked

def parse : CheckedParser HelloRandom := do
  let time ← Parser.Checked.word32
  let random ← Parser.Checked.take 28
  return ⟨time, ← Parser.Checked.access (Checked.octets 28 random)⟩

@[simp] theorem parse_eq : parse = Parser.lift HelloRandom.parse := by
  simp only [parse, HelloRandom.parse, Parser.lift_bind, Parser.lift_pure,
    Parser.Checked.word32_eq, Parser.Checked.take_eq]
  refine bind_congr fun time => Parser.Checked.take_bind_congr fun random hrandom => ?_
  rw [Checked.octets_eq hrandom, Parser.Checked.access_ok, pure_bind]

end HelloRandom.Checked

namespace SessionId.Checked

def ofBytes (bs : Bytes) : Checked (Except InvalidLength SessionId) := do
  if bs.length > maxLength then return .error ⟨bs.length⟩
  else return SessionId.ofBytes (← Checked.store maxLength bs)

/-- A session identifier is copied only after its length was compared with the room. -/
theorem ofBytes_eq (bs : Bytes) : ofBytes bs = .ok (SessionId.ofBytes bs) := by
  unfold ofBytes
  split
  · rename_i h
    rw [SessionId.ofBytes, dif_neg (Nat.not_le.2 h)]
    rfl
  · rename_i h
    rw [Checked.store_eq (Nat.not_lt.1 h)]
    rfl

def parse : CheckedParser SessionId := do
  match ← Parser.Checked.access (ofBytes (← Parser.Checked.block 1)) with
  | .ok id => return id
  | .error _ => throw (.fatal .lengthValue)

@[simp] theorem parse_eq : parse = Parser.lift SessionId.parse := by
  simp only [parse, SessionId.parse, Parser.lift_bind, Parser.Checked.block_eq]
  refine bind_congr fun bs => ?_
  rw [ofBytes_eq, Parser.Checked.access_ok, pure_bind]
  cases SessionId.ofBytes bs <;> rfl

end SessionId.Checked

namespace Extension.Checked

def parse : CheckedParser Extension := do
  let kind ← ExtensionType.ofCode <$> Parser.Checked.word16
  let data ← Parser.Checked.block 2
  return ⟨kind, data⟩

@[simp] theorem parse_eq : parse = Parser.lift Extension.parse := by
  simp [parse, Extension.parse, ExtensionType.parse]

def parseList (places : Nat) : CheckedParser (List Extension) := do
  Parser.Checked.within (← Parser.Checked.block 2) (Parser.Checked.many0 parse places places [])

@[simp] theorem parseList_eq (places : Nat) :
    parseList places = Parser.lift (Extension.parseList places) := by
  simp [parseList, Extension.parseList]

end Extension.Checked

namespace ServerHello.Checked

def parse : CheckedParser ServerHello := do
  let version ← ProtocolVersion.ofCode <$> Parser.Checked.word16
  let random ← HelloRandom.Checked.parse
  let sessionId ← SessionId.Checked.parse
  let suite ← CipherSuite.ofCode <$> Parser.Checked.word16
  let compression ← CompressionMethod.ofCode <$> Parser.Checked.byte
  let extensions ←
    if (← get).isEmpty then pure none else some <$> Extension.Checked.parseList extensionPlaces
  return { version, random, sessionId, suite, compression, extensions }

@[simp] theorem parse_eq : parse = Parser.lift ServerHello.parse := by
  simp [parse, ServerHello.parse, ProtocolVersion.parse, CipherSuite.parse, CompressionMethod.parse]

end ServerHello.Checked

namespace ClientHello.Checked

def parse : CheckedParser ClientHello := do
  let version ← ProtocolVersion.ofCode <$> Parser.Checked.word16
  let random ← HelloRandom.Checked.parse
  let sessionId ← SessionId.Checked.parse
  let suites ← Parser.Checked.within (← Parser.Checked.block 2)
    (Parser.Checked.many1 (CipherSuite.ofCode <$> Parser.Checked.word16) suitePlaces)
  let compression ← Parser.Checked.within (← Parser.Checked.block 1)
    (Parser.Checked.many1 (CompressionMethod.ofCode <$> Parser.Checked.byte) compressionPlaces)
  let extensions ←
    if (← get).isEmpty then pure [] else Extension.Checked.parseList extensionPlaces
  return { version, random, sessionId, suites, compression, extensions }

@[simp] theorem parse_eq : parse = Parser.lift ClientHello.parse := by
  have hsuite : CipherSuite.ofCode <$> Parser.lift Parser.word16 = Parser.lift CipherSuite.parse :=
    (Parser.lift_map _ _).symm
  have hmethod : CompressionMethod.ofCode <$> Parser.lift Parser.byte =
      Parser.lift CompressionMethod.parse := (Parser.lift_map _ _).symm
  simp [parse, ClientHello.parse, ProtocolVersion.parse, hsuite, hmethod]

end ClientHello.Checked

namespace CertificateChain.Checked

def parseAll : (free : Nat) → (held : List Bytes) → (input : Bytes) →
    Checked (Except Failure (List Bytes))
  | _, held, [] => return .ok held
  | 0, _, input => do
    match ← Parser.Checked.block 3 input with
    | .ok _ => return .error (.fatal .tooLarge)
    | .error e => return .error e
  | free + 1, held, input => do
    match ← Parser.Checked.block 3 input with
    | .ok (certificate, rest) =>
      let held ← Checked.extend places held [certificate]
      parseAll free held rest
    | .error e => return .error e

/-- A chain stops at the last free place, so none of its certificates is put outside. -/
theorem parseAll_eq (free : Nat) (held : List Bytes) (input : Bytes)
    (h : held.length + free ≤ places) :
    parseAll free held input =
      .ok ((fun r => held ++ r.1) <$> CertificateChain.parseAll free input) := by
  have hblock (bs : Bytes) :
      (Parser.Checked.block 3 bs : Checked (Except Failure _)) = .ok (Parser.block 3 bs) := by
    rw [Parser.Checked.block_eq]
    rfl
  induction free generalizing held input with
  | zero =>
    cases input with
    | nil => exact congrArg _ (congrArg _ (List.append_nil held).symm)
    | cons b bs =>
      simp only [parseAll, hblock, Checked.ok_bind, CertificateChain.parseAll]
      cases Parser.block 3 (b :: bs) <;> rfl
  | succ free ih =>
    cases input with
    | nil => exact congrArg _ (congrArg _ (List.append_nil held).symm)
    | cons b bs =>
      simp only [parseAll, hblock, Checked.ok_bind, CertificateChain.parseAll]
      rcases Parser.block 3 (b :: bs) with e | ⟨certificate, rest⟩
      · rfl
      · have hroom : held.length < places := by omega
        have hnext := ih (held ++ [certificate]) rest
          (by rw [List.length_append, List.length_singleton]; omega)
        simp only [Checked.extend_singleton_eq hroom, Checked.ok_bind, hnext]
        rcases CertificateChain.parseAll free rest with e | ⟨certificates, left⟩
        · rfl
        · exact congrArg _ (congrArg _ (List.append_assoc held [certificate] certificates))

def parse : CheckedParser CertificateChain := do
  let list ← Parser.Checked.block 3
  match ← Parser.Checked.access (parseAll places [] list) with
  | .ok certificates => return ⟨certificates⟩
  | .error e => throw e

@[simp] theorem parse_eq : parse = Parser.lift CertificateChain.parse := by
  simp only [parse, CertificateChain.parse, Parser.lift_bind, Parser.Checked.block_eq]
  refine bind_congr fun list => ?_
  rw [parseAll_eq places [] list (Nat.le_of_eq (Nat.zero_add _)), Parser.Checked.access_ok, pure_bind]
  rcases CertificateChain.parseAll places list with e | ⟨certificates, rest⟩ <;> rfl

end CertificateChain.Checked

namespace HandshakeBody.Checked

def parse (kind : MessageType) (suite : Option CipherSuite) : CheckedParser HandshakeBody :=
  match kind, suite with
  | .clientHello, _ => .clientHello <$> ClientHello.Checked.parse
  | .serverHello, _ => .serverHello <$> ServerHello.Checked.parse
  | .certificate, _ => .certificate <$> CertificateChain.Checked.parse
  | .clientKeyExchange, _ => (.clientKeyExchange ⟨·⟩) <$> Parser.Checked.block 2
  | .finished, some suite =>
    (.finished ⟨·⟩) <$> Parser.Checked.take suite.verifyDataLength
  | _, _ => Parser.lift (HandshakeBody.parse kind suite)

@[simp] theorem parse_eq (kind : MessageType) (suite : Option CipherSuite) :
    parse kind suite = Parser.lift (HandshakeBody.parse kind suite) := by
  cases kind with
  | finished => cases suite <;> simp [parse, HandshakeBody.parse, Finished.parse]
  | _ => simp [parse, HandshakeBody.parse, KeyExchange.parse]

end HandshakeBody.Checked

namespace Handshake.Checked

def completeLength (bs : Bytes) : Checked (Option Nat) := do
  match ← HandshakeHeader.Checked.parse bs with
  | .error _ => return none
  | .ok (header, _) =>
    let total := HandshakeHeader.byteLength + header.length
    return if bs.length ≥ total then some total else none

/-- The length of a message is read only once its header is there. -/
theorem completeLength_eq (bs : Bytes) :
    completeLength bs = .ok (Handshake.completeLength bs) := by
  rw [completeLength, HandshakeHeader.Checked.parse_eq, Handshake.completeLength]
  show (match HandshakeHeader.parse bs with | .error _ => _ | .ok (header, _) => _ : Checked _) = _
  cases HandshakeHeader.parse bs <;> rfl

def parse (suite : Option CipherSuite) : CheckedParser Handshake := do
  let header ← HandshakeHeader.Checked.parse
  let bytes ← Parser.Checked.take header.length
  let body ← Parser.Checked.within bytes (HandshakeBody.Checked.parse header.kind suite)
  return ⟨header, body⟩

@[simp] theorem parse_eq (suite : Option CipherSuite) :
    parse suite = Parser.lift (Handshake.parse suite) := by
  simp [parse, Handshake.parse]

end Handshake.Checked

end TlsClient
