import TlsClient.Message.Handshake
import TlsClient.Simulation.Peer

namespace TlsClient.Simulation

def completeRecords (bs : Bytes) : List Record × Bytes :=
  match Record.parse bs with
  | .error _ => ([], bs)
  | .ok (record, rest) =>
    -- A record has a header, so this always holds; it is what the recursion rests on.
    if rest.length < bs.length then
      let (records, rest) := completeRecords rest
      (record :: records, rest)
    else ([], bs)
termination_by bs.length

def completeMessages (bs : Bytes) : List Bytes :=
  match Handshake.completeLength bs with
  | none => []
  | some length =>
    if 0 < length ∧ 0 < bs.length then bs.take length :: completeMessages (bs.drop length) else []
termination_by bs.length
decreasing_by
  simp only [List.length_drop]
  omega

namespace Peer

def randomOffset : Nat := 6

def hiddenLength (reveal : Bool) : Nat :=
  if reveal then 4 else 32

/-- A hello with zeros where it would change from run to run. -/
def redact (message : Bytes) (length : Nat) : Bytes :=
  message.take randomOffset ++ List.replicate length 0 ++ message.drop (randomOffset + length)

def note (p : Peer) (message : Bytes) : Peer :=
  { p with dialogue.transcript := p.dialogue.transcript.update message }

def hearHello (p : Peer) (message : Bytes) : Peer :=
  let p := { p with
    dialogue.transcript := Sha256.empty.update message
    dialogue.clientRandom := (message.drop randomOffset).take 32 }
  (p.see (.clientHello (redact message (hiddenLength p.settings.reveal)))).performAll
    p.settings.onHello

def derive (p : Peer) (preMaster : Bytes) : Except CryptoFault (Bytes × DialogueKeys) := do
  let client := p.dialogue.clientRandom
  let server := p.settings.serverRandom
  let suite := p.settings.suite
  let master ← Prf.masterSecret preMaster client server
  let block ← Prf.keyBlock master client server suite.keyBlockLength
  let keys ← KeyMaterial.ofKeyBlock suite block
  return (master, ⟨.ofKeys suite keys .client, .ofKeys suite keys .server⟩)

def hearKeyExchange (p : Peer) (message : Bytes) : Peer :=
  let p := p.note message
  let body := message.drop HandshakeHeader.byteLength
  let block := p.settings.key.recover (body.drop 2)
  let preMaster := PrivateKey.messageOf block
  let p := p.see (.keyExchange {
    messageLength := message.length
    isPadded := PrivateKey.isPadded block
    paddingEnd := PrivateKey.paddingEnd block
    preMaster := preMaster
    body := body })
  match p.derive preMaster with
  | .ok (master, keys) =>
    { p with
      dialogue.masterSecret := master
      dialogue.keys := some keys }
  | .error _ => p

def hearFinished (p : Peer) (message : Bytes) : Peer :=
  let expected :=
    Prf.verifyData p.dialogue.masterSecret "client finished" p.dialogue.transcript.finish
  let isExpected :=
    match expected with
    | .ok bs => message.drop HandshakeHeader.byteLength == bs
    | .error _ => false
  ((p.see (.finished isExpected)).note message).performAll p.settings.onFinished

def hearMessage (p : Peer) (message : Bytes) : Peer :=
  match MessageType.ofCode (message.headD 0) with
  | .clientHello => p.hearHello message
  | .clientKeyExchange => p.hearKeyExchange message
  | .finished => p.hearFinished message
  | other => p.see (.handshake other)

def hearData (p : Peer) (record : Record) (content : Bytes) : Peer :=
  let p := p.see (.data content)
  let p :=
    if p.settings.reveal ∧ p.settings.suite = .rsaAes128CbcSha256 then
      p.see (.initialVector (record.fragment.take Aes.blockLength))
    else p
  if p.settings.echo then
    p.deliverSealed .applicationData content ⟨.tls12, none, .none, none⟩
  else p

def contentOf (p : Peer) (record : Record) : Option (Bytes × Peer) :=
  if p.dialogue.isOpening then
    match p.dialogue.keys with
    | none => none
    | some keys =>
      let context : RecordContext :=
        ⟨p.dialogue.readSequence, record.contentType, record.version⟩
      match keys.client.unprotect context record.fragment true with
      | .error _ => none
      | .ok content =>
        some (content, { p with dialogue.readSequence := p.dialogue.readSequence + 1 })
  else some (record.fragment, p)

def hear (p : Peer) (record : Record) : Peer :=
  match p.contentOf record with
  | none => p.see (.badRecord record.contentType)
  | some (content, p) =>
    let p := p.see (.record ⟨record.contentType, record.version, record.fragment.length⟩)
    match record.contentType with
    | .changeCipherSpec =>
      -- The client's next record is the first one under its keys.
      { p.see (.changeCipherSpec content) with
        dialogue.isOpening := true
        dialogue.readSequence := 0 }
    | .alert => p.see (.alert content)
    | .handshake => (completeMessages content).foldl hearMessage p
    | _ => p.hearData record content

def hearBytes (p : Peer) (bs : Bytes) : Peer :=
  let (records, rest) := completeRecords (p.dialogue.inbox ++ bs)
  records.foldl hear { p with dialogue.inbox := rest }

end Peer
end TlsClient.Simulation
