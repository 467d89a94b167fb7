import TlsClient.Proofs.Session.Progress
import TlsClient.Simulation.Tape

namespace TlsClient.Session

open Network Handshake

variable {τ ρ : Type}
variable {id : LinkId} {polls : Nat} {answer : Bytes → Bytes} {I : τ → Bytes → Bytes → Prop}
variable {s : Session τ ρ} {heard before : Bytes}

/-! ### The key exchange -/

/-- The encrypted secret stands behind a header and a length, six bytes in all. -/
theorem exchangeMessage_encrypted (encrypted : Bytes) :
    (exchangeMessage encrypted).drop 6 = encrypted := by
  -- Four bytes of header and two of length stand before the encrypted secret.
  have hbytes : exchangeMessage encrypted =
      ([16] ++ Bytes.ofNat 3 (KeyExchange.toBytes ⟨encrypted⟩).length ++
        Bytes.ofNat 2 encrypted.length) ++ encrypted := by
    rw [List.append_assoc]
    rfl
  rw [hbytes]
  exact List.drop_left' rfl

theorem length_exchangeMessage (encrypted : Bytes) :
    (exchangeMessage encrypted).length = 6 + encrypted.length := by
  have hmessage : (exchangeMessage encrypted).length = 4 + (KeyExchange.toBytes ⟨encrypted⟩).length :=
    length_toBytes _
  simp only [hmessage, KeyExchange.toBytes, List.length_append, Bytes.length_ofNat]
  omega

def exchanging (s : Session τ ρ) (encrypted : Bytes) (random : ρ) : Session τ ρ :=
  { s with
    random
    connection := { s.connection with
      state := .clientKeyExchangeSent
      transcript := s.connection.transcript.update (exchangeMessage encrypted) } }

variable [Transport τ] [RandomSource ρ]

omit [Transport τ] in
def preMasterOf (r : ρ) : Bytes :=
  ProtocolVersion.tls12.toBytes ++ (RandomSource.fill r preMasterRandomLength).1

omit [Transport τ] in
/-- There is a key exchange with which the owner of the private key gets the secret. -/
theorem exists_exchange {key : PublicKey} {secret : PrivateKey} (hsecret : secret.Inverts key)
    (hroom : 59 ≤ key.byteLength) {r : ρ} (hlive : RandomSource.Lively r) :
    ∃ bound encrypted r',
      (∀ fuel, bound ≤ fuel → key.encrypt fuel (preMasterOf r)
        (RandomSource.fill r preMasterRandomLength).2 = (.ok encrypted, r')) ∧
      PrivateKey.messageOf (secret.recover encrypted) = preMasterOf r ∧
      (exchangeMessage encrypted).length ≤ Record.maxPlaintext := by
  have hlength : (preMasterOf r).length = 48 := by
    rw [preMasterOf, List.length_append, RandomSource.length_fill]
    rfl
  have hfits : (preMasterOf r).length + PublicKey.paddingOverhead ≤ key.byteLength := by
    rw [hlength]
    exact hroom
  have hleads := (RandomSource.Leads.refl r).fill preMasterRandomLength
  obtain ⟨bound, encrypted, r', hencrypt, hencrypted, hopens⟩ :=
    PublicKey.exists_encrypt hsecret hfits (hlive.of_leads hleads)
  refine ⟨bound, encrypted, r', hencrypt, hopens, ?_⟩
  -- No key is so long that its message would not fit into a record.
  have hle := key.byteLength_le
  have hcapacity : Natural.capacity = 128 := rfl
  have hmax : Record.maxPlaintext = 16384 := rfl
  rw [length_exchangeMessage]
  omega

theorem sendKeyExchange_of_send {transport : τ} (hlink : s.connection.link = some id)
    (hstate : s.connection.state = .serverHelloDoneReceived)
    (hclear : s.connection.writeProtection = none) {key : PublicKey}
    (hkey : s.connection.serverKey = some key) {fuel : Nat} {encrypted : Bytes} {random : ρ}
    (hencrypt : key.encrypt fuel (preMasterOf s.random)
      (RandomSource.fill s.random preMasterRandomLength).2 = (.ok encrypted, random))
    (hshort : (exchangeMessage encrypted).length ≤ Record.maxPlaintext)
    (hsend : Transport.send s.transport id (inClear .handshake (exchangeMessage encrypted)).toBytes =
      (.ok (inClear .handshake (exchangeMessage encrypted)).toBytes.length, transport)) :
    sendKeyExchange fuel s =
      .ok (preMasterOf s.random) ((s.exchanging encrypted random).carrying transport) := by
  have hdraw : (draw (key.encrypt fuel (preMasterOf s.random)) : Action τ ρ _)
      { s with random := (RandomSource.fill s.random preMasterRandomLength).2 } =
      .ok (.ok encrypted) { s with random } := by
    rw [draw, hencrypt]
  have hmessage : sendMessage .clientKeyExchange (.clientKeyExchange ⟨encrypted⟩)
      { s with random } =
      .ok () (({ s with random : Session τ ρ }.noting (exchangeMessage encrypted)).carrying
        transport) :=
    sendMessage_of_send (s := { s with random }) hlink hclear rfl hshort hsend
  have hnext : (({ s with random : Session τ ρ }.noting (exchangeMessage encrypted)).carrying
      transport).connection.state.next? .sendClientKeyExchange = some .clientKeyExchangeSent := by
    change s.connection.state.next? .sendClientKeyExchange = _
    rw [hstate]
    rfl
  rw [sendKeyExchange]
  apply (bind_of_ok (rfl : current s = .ok s.connection s)).trans
  rw [hkey]
  apply (bind_of_ok rfl).trans
  apply (bind_of_ok hdraw).trans
  apply (bind_of_ok hmessage).trans
  exact bind_of_ok (advance_of_next _ hnext)

/-- The key exchange reaches a transport that accepts all that is sent. -/
theorem sendKeyExchange_succeeds (hc : Carries id polls answer I)
    (h : Attached id polls I s heard before)
    (hstate : s.connection.state = .serverHelloDoneReceived)
    (hclear : s.connection.writeProtection = none) {key : PublicKey}
    (hkey : s.connection.serverKey = some key) {fuel : Nat} {encrypted : Bytes} {random : ρ}
    (hencrypt : key.encrypt fuel (preMasterOf s.random)
      (RandomSource.fill s.random preMasterRandomLength).2 = (.ok encrypted, random))
    (hshort : (exchangeMessage encrypted).length ≤ Record.maxPlaintext) :
    ∃ transport,
      sendKeyExchange fuel s =
        .ok (preMasterOf s.random) ((s.exchanging encrypted random).carrying transport) ∧
      Attached id polls I ((s.exchanging encrypted random).carrying transport)
        (heard ++ (inClear .handshake (exchangeMessage encrypted)).toBytes) before := by
  obtain ⟨transport, hsend, hI⟩ :=
    hc.send (inClear .handshake (exchangeMessage encrypted)).toBytes h.carried
  refine ⟨transport, ?_, h.link, h.polls, hI⟩
  exact sendKeyExchange_of_send h.link hstate hclear hkey hencrypt hshort hsend

/-! ### The keys -/

omit [Transport τ] [RandomSource ρ] in
/-- The keys are derived once a suite is selected, since every length that is asked for is within
the limit. -/
theorem deriveKeys_succeeds {suite : CipherSuite} (hsuite : s.connection.suite = some suite)
    {preMaster master block : Bytes} {keys : KeyMaterial}
    (hmaster : Prf.masterSecret preMaster s.connection.clientRandom.toBytes
      s.connection.serverRandom.toBytes = .ok master)
    (hblock : Prf.keyBlock master s.connection.clientRandom.toBytes
      s.connection.serverRandom.toBytes suite.keyBlockLength = .ok block)
    (hkeys : KeyMaterial.ofKeyBlock suite block = .ok keys) :
    deriveKeys preMaster s = .ok () (s.keying suite keys master) := by
  rw [deriveKeys]
  apply (bind_of_ok (rfl : current s = .ok s.connection s)).trans
  rw [hsuite]
  apply (bind_of_ok (check_eq_ok_iff.2 ⟨congrArg (Except.mapError Error.crypto) hmaster, rfl⟩)).trans
  apply (bind_of_ok rfl).trans
  apply (bind_of_ok (check_eq_ok_iff.2 ⟨congrArg (Except.mapError Error.crypto) hblock, rfl⟩)).trans
  apply (bind_of_ok (check_eq_ok_iff.2 ⟨congrArg (Except.mapError Error.crypto) hkeys, rfl⟩)).trans
  rfl

/-! ### The change of the cipher and the Finished message -/

def announcing (c : Connection) : Connection :=
  { c with clientSequence := 0, state := .changeCipherSpecSent }

/-- The change of the cipher reaches such a transport as well. -/
theorem sendChangeCipherSpec_succeeds (hc : Carries id polls answer I)
    (h : Attached id polls I s heard before)
    (hstate : s.connection.state = .clientKeyExchangeSent) :
    ∃ transport, sendChangeCipherSpec s = .ok () ((s.carrying transport).updating announcing) ∧
      Attached id polls I ((s.carrying transport).updating announcing)
        (heard ++ (inClear .changeCipherSpec [1]).toBytes) before := by
  obtain ⟨transport, hsend, hattached⟩ := transmit_clear hc h .changeCipherSpec
    (show changeCipherSpec.length ≤ Record.maxPlaintext by decide)
  refine ⟨transport, ?_, hattached.link, hattached.polls, hattached.carried⟩
  have hnext : ((s.carrying transport).updating fun c =>
      { c with clientSequence := 0 }).connection.state.next? .sendChangeCipherSpec =
      some .changeCipherSpecSent := by
    change s.connection.state.next? .sendChangeCipherSpec = _
    rw [hstate]
    rfl
  rw [sendChangeCipherSpec]
  apply (bind_of_ok hsend).trans
  apply (bind_of_ok rfl).trans
  exact advance_of_next _ hnext

omit [Transport τ] [RandomSource ρ] in
theorem verifyDataFor_succeeds {label : String} {verifyData : Bytes}
    (h : Prf.verifyData s.connection.masterSecret label s.connection.transcript.finish =
      .ok verifyData) : verifyDataFor label s = .ok verifyData s := by
  rw [verifyDataFor]
  apply (bind_of_ok (rfl : current s = .ok s.connection s)).trans
  exact check_eq_ok_iff.2 ⟨congrArg (Except.mapError Error.crypto) h, rfl⟩

def finalizing (m : Bytes) (c : Connection) : Connection :=
  { c with
    state := .finishedSent
    clientSequence := 1
    transcript := c.transcript.update m }

/-- So does the Finished message, as the first record under the new keys. -/
theorem sendFinished_succeeds (hc : Carries id polls answer I)
    (h : Attached id polls I s heard before)
    (hstate : s.connection.state = .changeCipherSpecSent) {p : Protection}
    (hp : s.connection.writeProtection = some p) (hzero : s.connection.clientSequence = 0)
    {verifyData : Bytes}
    (hdata : Prf.verifyData s.connection.masterSecret "client finished"
      s.connection.transcript.finish = .ok verifyData)
    (hshort : (finishedMessage verifyData).length ≤ Record.maxPlaintext) :
    ∃ transport random,
      sendFinished s = .ok () (({ s with transport, random }).updating
        (finalizing (finishedMessage verifyData))) ∧
      Attached id polls I (({ s with transport, random : Session τ ρ }).updating
          (finalizing (finishedMessage verifyData)))
        (heard ++ (lastRecord p (finishedMessage verifyData) s.random).toBytes) before := by
  obtain ⟨transport, hsend, hattached⟩ := sendMessage_sealed hc h hp hzero
    (rfl : finishedMessage verifyData = _) hshort
  refine ⟨transport, (p.protect ⟨0, .handshake, .tls12⟩ (finishedMessage verifyData) s.random).2,
    ?_, hattached.link, hattached.polls, hattached.carried⟩
  rw [sendFinished]
  apply (bind_of_ok (verifyDataFor_succeeds hdata)).trans
  apply (bind_of_ok hsend).trans
  apply advance_of_next .finishedSent
  change s.connection.state.next? .sendFinished = _
  rw [hstate]
  rfl

/-! ### The server's end -/

section
omit [RandomSource ρ]

variable {records : List Record}

def rekeying (c : Connection) : Connection :=
  { c with
    readProtection := c.pendingReadProtection
    pendingReadProtection := none
    serverSequence := 0 }

/-- The server's change of its cipher is accepted if it is next on the wire. -/
theorem receiveChangeCipherSpec_succeeds (hc : Carries id polls answer I)
    (h : Attached id polls I s heard (wire records))
    (hall : ∀ x ∈ records ++ [inClear .changeCipherSpec [1]], x.Acceptable)
    (hanswer : wire (records ++ [inClear .changeCipherSpec [1]]) <+: answer heard)
    (hclear : s.connection.readProtection = none) (hempty : s.connection.handshakeBuffer = []) :
    ∃ transport reader,
      receiveChangeCipherSpec s = .ok () ((s.reading transport reader).updating rekeying) ∧
      Attached id polls I ((s.reading transport reader).updating rekeying) heard
        (wire (records ++ [inClear .changeCipherSpec [1]])) := by
  obtain ⟨transport, reader, hreceive, hattached⟩ :=
    receive_delivers hc h hall (by decide) hanswer hclear
  refine ⟨transport, reader, ?_, hattached.link, hattached.polls, hattached.carried⟩
  have hright : ¬ (inClear .changeCipherSpec [1]).fragment ≠ changeCipherSpec := not_not_intro rfl
  have hempty' : ¬ (s.reading transport reader).connection.handshakeBuffer ≠ [] :=
    not_not_intro hempty
  rw [receiveChangeCipherSpec]
  apply (bind_of_ok hreceive).trans
  dsimp only [inClear] at hright ⊢
  rw [if_neg hright]
  apply (bind_of_ok rfl).trans
  rw [if_neg hempty']
  rfl

/-- A handshake record in its place is refused, even if it is empty. -/
theorem receiveChangeCipherSpec_refuses (hc : Carries id polls answer I)
    (h : Attached id polls I s heard (wire records)) (hall : ∀ x ∈ records, x.Acceptable)
    {r : Record} (hr : Plain r) (hanswer : wire (records ++ [r]) <+: answer heard)
    (hclear : s.connection.readProtection = none) :
    ∃ t, receiveChangeCipherSpec s = .error (.failed (.unexpectedContentType .handshake)) t := by
  have hall' : ∀ x ∈ records ++ [r], x.Acceptable :=
    List.forall_mem_append.2 ⟨hall, List.forall_mem_singleton.2 hr.acceptable⟩
  obtain ⟨transport, reader, hreceive, -⟩ :=
    receive_delivers hc h hall' hr.length_le hanswer hclear
  refine ⟨s.reading transport reader, ?_⟩
  rw [receiveChangeCipherSpec]
  apply (bind_of_ok hreceive).trans
  rw [hr.kind]
  rfl

def counting (c : Connection) : Connection :=
  { c with serverSequence := 1 }

section
variable {σ : Type} [RandomSource σ]

/-- The first record under the keys opens. -/
theorem receive_sealed (hc : Carries id polls answer I)
    (h : Attached id polls I s heard (wire records)) {p : Protection}
    (hp : s.connection.readProtection = some p) (hzero : s.connection.serverSequence = 0)
    {m : Bytes} (hshort : m.length ≤ Record.maxPlaintext) (random : σ)
    (hall : ∀ x ∈ records ++ [lastRecord p m random], x.Acceptable)
    (hanswer : wire (records ++ [lastRecord p m random]) <+: answer heard) :
    ∃ transport reader,
      receive s = .ok (inClear .handshake m) ((s.reading transport reader).updating counting) ∧
      Attached id polls I ((s.reading transport reader).updating counting) heard
        (wire (records ++ [lastRecord p m random])) := by
  obtain ⟨transport, reader, hwire, hattached⟩ :=
    receiveWire_delivers hc h hall hanswer
  refine ⟨transport, reader, ?_, hattached.link, hattached.polls, hattached.carried⟩
  -- Both ends use number zero, so what was protected is what is opened.
  apply receive_eq_ok_iff.2
  refine ⟨_, m, _, hwire, ?_, hshort, rfl⟩
  have hp' : (s.reading transport reader).connection.readProtection = some p := hp
  have hzero' : (s.reading transport reader).connection.serverSequence = 0 := hzero
  rw [contentOf_eq_ok_iff, hp', hzero']
  exact ⟨p.unprotect_protect ⟨0, .handshake, .tls12⟩ m random _, 1, rfl, rfl⟩

/-- A message that a record brings as a whole is received. -/
theorem receiveMessage_whole (fuel : Nat) {m : Bytes} {t : Session τ ρ}
    (hempty : s.connection.handshakeBuffer = []) (hm : IsFramed m)
    (h : receive s = .ok (inClear .handshake m) t)
    (hempty' : t.connection.handshakeBuffer = []) :
    receiveMessage (fuel + 2) s = .ok m t := by
  -- Nothing is buffered, so the first turn reads the record and the second takes the message out.
  have hwait : Waits s.connection.handshakeBuffer := by
    rw [hempty]
    intro n hn
    have hfour := (four_le_of_announced hn).1
    have hnone : ([] : Bytes).length = 0 := rfl
    omega
  have hannounced := (completeLength_eq_some_iff_announced.1 hm).1
  have hlength : m.length ≤ (t.buffering m).connection.handshakeBuffer.length := Nat.le_refl _
  have hcomplete : receiveMessage (fuel + 1) (t.buffering m) = _ :=
    receiveMessage_complete hannounced hlength
  have hturn := receiveMessage_waits (fuel + 1) hwait h rfl
  rw [hempty'] at hturn
  have hsame : (t.buffering m).buffering [] = t := buffering_self hempty'
  rw [buffer_buffering, List.take_length, List.drop_length, hsame] at hcomplete
  exact hturn.trans hcomplete

theorem finishedMessage_length {verifyData : Bytes} (h : verifyData.length = 12) :
    (finishedMessage verifyData).length = 16 := by
  have hmessage : (finishedMessage verifyData).length = 4 + verifyData.length := length_toBytes _
  omega

theorem isFramed_finishedMessage {verifyData : Bytes} (h : verifyData.length = 12) :
    IsFramed (finishedMessage verifyData) := by
  have hkind : MessageType.finished.Canonical := rfl
  have hlength : (HandshakeBody.finished ⟨verifyData⟩).toBytes.length < 2 ^ 24 := by
    change verifyData.length < 2 ^ 24
    omega
  exact isFramed_toBytes hkind hlength

/-- A Finished message is read back with its verify data. -/
theorem parse_finishedMessage {verifyData : Bytes} (h : verifyData.length = 12)
    (suite : CipherSuite) :
    (Handshake.parse (some suite)).parse (finishedMessage verifyData) =
      .ok ⟨⟨.finished, verifyData.length⟩, .finished ⟨verifyData⟩⟩ := by
  have hkind : MessageType.finished.Canonical := rfl
  have hlength : (HandshakeBody.finished ⟨verifyData⟩).toBytes.length < 2 ^ 24 := by
    change verifyData.length < 2 ^ 24
    omega
  have htake : Wire.Parser.take suite.verifyDataLength verifyData = .ok (verifyData, []) :=
    Wire.Parser.take_eq_ok_iff.2 ⟨h, (List.append_nil _).symm⟩
  have hbody : HandshakeBody.parse .finished (some suite) verifyData =
      .ok (.finished ⟨verifyData⟩, []) :=
    Wire.Parser.map_eq_ok_iff.2 ⟨⟨verifyData⟩, Wire.Parser.map_eq_ok_iff.2 ⟨_, htake, rfl⟩, rfl⟩
  have hparse : Handshake.parse (some suite) (finishedMessage verifyData) = _ :=
    parse_toBytes hkind hlength hbody
  rw [Wire.Parser.parse, hparse]
  rfl

/-- The server's Finished message is the expected one. -/
theorem receiveFinished_succeeds (hc : Carries id polls answer I)
    (h : Attached id polls I s heard (wire records)) {p : Protection}
    (hp : s.connection.readProtection = some p) (hzero : s.connection.serverSequence = 0)
    (hempty : s.connection.handshakeBuffer = []) {suite : CipherSuite}
    (hsuite : s.connection.suite = some suite) {verifyData : Bytes}
    (hdata : Prf.verifyData s.connection.masterSecret "server finished"
      s.connection.transcript.finish = .ok verifyData) (hlength : verifyData.length = 12)
    (random : σ)
    (hall : ∀ x ∈ records ++ [lastRecord p (finishedMessage verifyData) random], x.Acceptable)
    (hanswer : wire (records ++ [lastRecord p (finishedMessage verifyData) random]) <+:
      answer heard) (fuel : Nat) :
    ∃ transport reader transcript,
      receiveFinished (fuel + 2) s =
        .ok () ((s.reading transport reader).updating fun c => { counting c with transcript }) ∧
      Attached id polls I
        ((s.reading transport reader).updating fun c => { counting c with transcript }) heard
        (wire (records ++ [lastRecord p (finishedMessage verifyData) random])) := by
  have hshort : (finishedMessage verifyData).length ≤ Record.maxPlaintext := by
    rw [finishedMessage_length hlength]
    decide
  obtain ⟨transport, reader, hreceive, hattached⟩ :=
    receive_sealed hc h hp hzero hshort random hall hanswer
  have hmessage := receiveMessage_whole fuel hempty (isFramed_finishedMessage hlength)
    hreceive hempty
  refine ⟨transport, reader, s.connection.transcript.update (finishedMessage verifyData), ?_,
    hattached.link, hattached.polls, hattached.carried⟩
  have hparse := parse_finishedMessage hlength suite
  rw [← hsuite] at hparse
  have hverify : Finished.verify ⟨verifyData⟩ verifyData = true := (Bytes.agree_iff _ _).2 rfl
  rw [receiveFinished]
  apply (bind_of_ok (verifyDataFor_succeeds hdata)).trans
  apply (bind_of_ok hmessage).trans
  apply (bind_of_ok rfl).trans
  apply (bind_of_ok (check_eq_ok_iff.2 ⟨hparse, rfl⟩)).trans
  dsimp only
  rw [if_pos hverify]
  rfl

/-- The server's Finished message is passed over if it is not to be checked. -/
theorem skipFinished_succeeds (hc : Carries id polls answer I)
    (h : Attached id polls I s heard (wire records)) (hzero : s.connection.serverSequence = 0)
    (p : Protection) {m : Bytes} (random : σ)
    (hall : ∀ x ∈ records ++ [lastRecord p m random], x.Acceptable)
    (hanswer : wire (records ++ [lastRecord p m random]) <+: answer heard) :
    ∃ transport reader,
      skipFinished s = .ok () ((s.reading transport reader).updating counting) ∧
      Attached id polls I ((s.reading transport reader).updating counting) heard
        (wire (records ++ [lastRecord p m random])) := by
  -- The record is read as it is and only counted.
  obtain ⟨transport, reader, hwire, hattached⟩ :=
    receiveWire_delivers hc h hall hanswer
  refine ⟨transport, reader, ?_, hattached.link, hattached.polls, hattached.carried⟩
  have hnext : nextSequence (s.reading transport reader).connection.serverSequence = .ok 1 := by
    change nextSequence s.connection.serverSequence = _
    rw [hzero]
    rfl
  have hkind : (lastRecord p m random).contentType = .handshake := rfl
  rw [skipFinished]
  apply (bind_of_ok hwire).trans
  apply (bind_of_ok rfl).trans
  apply (bind_of_ok (check_eq_ok_iff.2 ⟨hnext, rfl⟩)).trans
  apply (bind_of_ok rfl).trans
  rw [if_pos hkind]
  rfl

/-- The server's Finished message is accepted, checked or not. -/
theorem acceptFinished_succeeds (hc : Carries id polls answer I)
    (h : Attached id polls I s heard (wire records)) {p : Protection}
    (hp : s.connection.readProtection = some p) (hzero : s.connection.serverSequence = 0)
    (hempty : s.connection.handshakeBuffer = []) {suite : CipherSuite}
    (hsuite : s.connection.suite = some suite) {verifyData : Bytes}
    (hdata : Prf.verifyData s.connection.masterSecret "server finished"
      s.connection.transcript.finish = .ok verifyData) (hlength : verifyData.length = 12)
    (random : σ)
    (hall : ∀ x ∈ records ++ [lastRecord p (finishedMessage verifyData) random], x.Acceptable)
    (hanswer : wire (records ++ [lastRecord p (finishedMessage verifyData) random]) <+:
      answer heard) {fuel : Nat} (hfuel : 2 ≤ fuel) :
    ∃ transport reader transcript,
      (if s.config.verifyFinished then receiveFinished fuel else skipFinished) s =
        .ok () ((s.reading transport reader).updating fun c => { counting c with transcript }) ∧
      Attached id polls I
        ((s.reading transport reader).updating fun c => { counting c with transcript }) heard
        (wire (records ++ [lastRecord p (finishedMessage verifyData) random])) := by
  cases hverify : s.config.verifyFinished with
  | true =>
    obtain ⟨fuel, rfl⟩ : ∃ k, fuel = k + 2 := ⟨fuel - 2, by omega⟩
    rw [if_pos rfl]
    exact receiveFinished_succeeds hc h hp hzero hempty hsuite hdata hlength random hall hanswer
      fuel
  | false =>
    rw [if_neg Bool.false_ne_true]
    obtain ⟨transport, reader, hskip, hattached⟩ :=
      skipFinished_succeeds hc h hzero p random hall hanswer
    -- A message that is passed over does not enter the transcript.
    exact ⟨transport, reader, s.connection.transcript, hskip, hattached.link, hattached.polls,
      hattached.carried⟩

def concluding (transcript : Sha256) (c : Connection) : Connection :=
  { c with
    readProtection := c.pendingReadProtection
    pendingReadProtection := none
    serverSequence := 1
    transcript
    state := .established }

/-- With the two ways to the end as one step. -/
theorem receiveEnd_eq (fuel : Nat) :
    (receiveEnd fuel : Action τ ρ Unit) = receiveChangeCipherSpec >>= fun _ => get >>= fun s =>
      (if s.config.verifyFinished then receiveFinished fuel else skipFinished) >>= fun _ =>
        advance .serverFinished := by
  rw [receiveEnd]
  congr 1
  funext _
  congr 1
  funext s
  split
  · rfl
  · rfl

/-- The server's last two records are accepted if they are next on the wire and the verify data is
right. -/
theorem receiveEnd_succeeds (hc : Carries id polls answer I)
    (h : Attached id polls I s heard (wire records)) (hall : ∀ x ∈ records, x.Acceptable)
    (hstate : s.connection.state = .finishedSent)
    (hclear : s.connection.readProtection = none) {p : Protection}
    (hp : s.connection.pendingReadProtection = some p) (hempty : s.connection.handshakeBuffer = [])
    {suite : CipherSuite} (hsuite : s.connection.suite = some suite) {verifyData : Bytes}
    (hdata : Prf.verifyData s.connection.masterSecret "server finished"
      s.connection.transcript.finish = .ok verifyData) (hlength : verifyData.length = 12)
    (random : σ)
    (hanswer : wire (records ++ [inClear .changeCipherSpec [1]] ++
      [lastRecord p (finishedMessage verifyData) random]) <+: answer heard)
    {fuel : Nat} (hfuel : 2 ≤ fuel) :
    ∃ transport reader transcript,
      receiveEnd fuel s =
        .ok () ((s.reading transport reader).updating (concluding transcript)) ∧
      Attached id polls I ((s.reading transport reader).updating (concluding transcript)) heard
        (wire (records ++ [inClear .changeCipherSpec [1]] ++
          [lastRecord p (finishedMessage verifyData) random])) := by
  have hshort : (finishedMessage verifyData).length ≤ Record.maxPlaintext := by
    rw [finishedMessage_length hlength]
    decide
  have hfirst : wire (records ++ [inClear .changeCipherSpec [1]]) <+: answer heard := by
    rw [wire_append] at hanswer
    exact (List.prefix_append _ _).trans hanswer
  have hchanged : ∀ x ∈ records ++ [inClear .changeCipherSpec [1]], x.Acceptable :=
    List.forall_mem_append.2 ⟨hall, List.forall_mem_singleton.2 change_acceptable⟩
  have hlast : ∀ x ∈ records ++ [inClear .changeCipherSpec [1]] ++
      [lastRecord p (finishedMessage verifyData) random], x.Acceptable :=
    List.forall_mem_append.2 ⟨hchanged, List.forall_mem_singleton.2
      (lastRecord_acceptable p hshort random)⟩
  obtain ⟨transport, reader, hchange, hattached⟩ :=
    receiveChangeCipherSpec_succeeds hc h hchanged hfirst hclear hempty
  obtain ⟨transport', reader', transcript, hfinished, hattached'⟩ :=
    acceptFinished_succeeds hc hattached hp rfl hempty hsuite hdata hlength random hlast hanswer
      hfuel
  refine ⟨transport', reader', transcript, ?_, hattached'.link, hattached'.polls,
    hattached'.carried⟩
  have hnext : s.connection.state.next? .serverFinished = some .established := by
    rw [hstate]
    rfl
  rw [receiveEnd_eq]
  apply (bind_of_ok hchange).trans
  apply (bind_of_ok rfl).trans
  apply (bind_of_ok hfinished).trans
  refine (advance_of_next .established ?_).trans ?_
  · simpa only [updating, reading, rekeying, counting] using hnext
  · simp only [updating, reading, rekeying, counting, concluding]

end

end

/-! ### The parts together -/

def listen (fuel : Nat) (now : Clock) (host : String) (peer : Endpoint) : Action τ ρ Unit := do
  let id ← operate (Transport.connect · peer)
  update ({ · with link := some id })
  sendHello now host
  receiveFlight fuel

def speak (fuel : Nat) : Action τ ρ Unit := do
  let preMaster ← sendKeyExchange fuel
  deriveKeys preMaster
  sendChangeCipherSpec
  sendFinished

/-- A handshake is these three parts in a row. -/
theorem negotiate_eq (fuel : Nat) (now : Clock) (host : String) (peer : Endpoint) :
    (negotiate fuel now host peer : Action τ ρ Unit) = (do
      listen fuel now host peer
      speak fuel
      receiveEnd fuel) := by
  simp only [negotiate, listen, speak, bind_assoc]

/-- When both halves are through, the end decides. -/
theorem handshake_of_halves {t u : Session τ ρ} {fuel : Nat} {now : Clock} {host : String}
    {peer : Endpoint} (hstate : s.connection.state = .init)
    (hlisten : listen fuel now host peer s = .ok () t) (hspeak : speak fuel t = .ok () u) :
    handshake fuel now host peer s = orFail (receiveEnd fuel) u := by
  have hnegotiate : negotiate fuel now host peer s = receiveEnd fuel u := by
    rw [negotiate_eq]
    apply (bind_of_ok hlisten).trans
    exact bind_of_ok hspeak
  rw [handshake]
  apply (bind_of_ok (rfl : current s = .ok s.connection s)).trans
  rw [if_pos hstate, orFail, orFail, hnegotiate]

/-- A handshake succeeds if its parts do. -/
theorem handshake_of_parts {t u v : Session τ ρ} {fuel : Nat} {now : Clock} {host : String}
    {peer : Endpoint} (hstate : s.connection.state = .init)
    (hlisten : listen fuel now host peer s = .ok () t) (hspeak : speak fuel t = .ok () u)
    (hend : receiveEnd fuel u = .ok () v) : handshake fuel now host peer s = .ok () v := by
  rw [handshake_of_halves hstate hlisten hspeak, orFail, hend]

end TlsClient.Session

/-! ### The recorded server -/

namespace TlsClient.Simulation.Tape

open Network Session

def answered : Session (Recorded Tape) ScriptedSource :=
  after (listen 100 ⟨0, 0⟩ "" .unspecified) client

def clientRandom : Bytes :=
  [0, 0, 0, 0, 1, 5, 9, 13, 17, 21, 25, 29, 33, 37, 41, 45, 49, 53, 57, 61, 65, 69, 73, 77, 81, 85,
    89, 93, 97, 101, 105, 109]

def serverRandom : Bytes :=
  (List.range 32).map UInt8.ofNat

def IsAnswered (s : Session (Recorded Tape) ScriptedSource) : Prop :=
  s.connection.link = some ⟨7⟩ ∧ s.connection.state = .serverHelloDoneReceived ∧
    s.connection.writeProtection = none ∧ s.connection.serverKey = some key ∧
    s.connection.suite = some .rsaAes128GcmSha256 ∧
    s.connection.clientRandom.toBytes = clientRandom ∧
    s.connection.serverRandom.toBytes = serverRandom ∧ s.random = ⟨[], 113, 112⟩

instance (s : Session (Recorded Tape) ScriptedSource) : Decidable (IsAnswered s) := by
  unfold IsAnswered
  infer_instance

theorem client_reaches_answered : reaches (listen 100 ⟨0, 0⟩ "" .unspecified) client IsAnswered := by
  decide +kernel

theorem listen_client : listen 100 ⟨0, 0⟩ "" .unspecified client = .ok () answered :=
  (eq_ok_of_reaches client_reaches_answered).1

theorem isAnswered_answered : IsAnswered answered :=
  of_decide_eq_true (eq_ok_of_reaches client_reaches_answered).2

def preMaster : Bytes :=
  [3, 3] ++ (List.range 46).map fun i => UInt8.ofNat (113 + i)

def encrypted : Bytes :=
  [0, 2, 159, 160, 161, 162, 163, 164, 165, 166, 0] ++ preMaster

theorem encrypt_preMaster :
    key.encrypt 100 (preMasterOf (⟨[], 113, 112⟩ : ScriptedSource))
      (RandomSource.fill (⟨[], 113, 112⟩ : ScriptedSource) preMasterRandomLength).2 =
      (.ok encrypted, ⟨[], 167, 166⟩) := by
  have hpad : PublicKey.pad 100 (preMasterOf (⟨[], 113, 112⟩ : ScriptedSource)) key.byteLength
      (RandomSource.fill (⟨[], 113, 112⟩ : ScriptedSource) preMasterRandomLength).2 =
      (.ok encrypted, ⟨[], 167, 166⟩) := by
    decide +kernel
  have hraise : key.raise encrypted = .ok encrypted := by
    have hlength : encrypted.length = key.byteLength := by
      decide +kernel
    have hpower : Bytes.ofNat key.byteLength
        (encrypted.toNat ^ key.exponent.value % key.modulus.value) = encrypted := by
      decide +kernel
    rw [key.raise_eq_ok hlength, hpower]
  rw [PublicKey.encrypt, hpad]
  dsimp only
  rw [hraise]
  rfl

def master : Bytes :=
  [227, 39, 47, 219, 52, 224, 202, 11, 188, 122, 84, 108, 225, 122, 189, 116, 116, 63, 32, 241, 207,
    44, 52, 233, 58, 161, 69, 228, 187, 227, 2, 198, 32, 191, 77, 249, 225, 224, 77, 84, 175, 209, 18,
    167, 51, 163, 126, 252]

def keyBlock : Bytes :=
  [33, 216, 184, 133, 131, 63, 148, 239, 112, 4, 67, 53, 235, 67, 81, 128, 190, 42, 215, 223, 44, 247,
    193, 55, 109, 98, 200, 29, 76, 219, 72, 60, 15, 197, 231, 126, 241, 133, 9, 95]

theorem masterSecret_eq : Prf.masterSecret preMaster clientRandom serverRandom = .ok master := by
  decide +kernel

theorem keyBlock_eq : Prf.keyBlock master clientRandom serverRandom
    CipherSuite.rsaAes128GcmSha256.keyBlockLength = .ok keyBlock := by
  decide +kernel

def keys : KeyMaterial where
  client := ⟨[], .ofBytes (Secrets.cut keyBlock 0 16), Secrets.cut keyBlock 32 4⟩
  server := ⟨[], .ofBytes (Secrets.cut keyBlock 16 16), Secrets.cut keyBlock 36 4⟩

theorem send_eq (t : Recorded Tape) (id : LinkId) (bs : Bytes) :
    Transport.send t id bs = (.ok bs.length, { t with sent := t.sent ++ [bs] }) := rfl

def keyed (s : Session (Recorded Tape) ScriptedSource) : Session (Recorded Tape) ScriptedSource :=
  ((s.exchanging encrypted ⟨[], 167, 166⟩).carrying { s.transport with
    sent := s.transport.sent ++ [(inClear .handshake (exchangeMessage encrypted)).toBytes] }).keying
    .rsaAes128GcmSha256 keys master

theorem exists_keyed {s : Session (Recorded Tape) ScriptedSource} (h : IsAnswered s) :
    ∃ t, sendKeyExchange 100 s = .ok preMaster t ∧ deriveKeys preMaster t = .ok () (keyed s) := by
  obtain ⟨hlink, hstate, hclear, hkey, hsuite, hclient, hserver, hrandom⟩ := h
  have hencrypt := encrypt_preMaster
  rw [← hrandom] at hencrypt
  have hshort : (exchangeMessage encrypted).length ≤ Record.maxPlaintext := by
    decide +kernel
  have hexchange := sendKeyExchange_of_send hlink hstate hclear hkey hencrypt hshort
    (send_eq s.transport _ _)
  have hsecret : preMasterOf s.random = preMaster := by
    rw [hrandom]
    decide +kernel
  have hmaster := masterSecret_eq
  have hblock := keyBlock_eq
  rw [← hclient, ← hserver] at hmaster hblock
  have hkeys : KeyMaterial.ofKeyBlock .rsaAes128GcmSha256 keyBlock = .ok keys := by
    decide +kernel
  rw [hsecret] at hexchange
  refine ⟨_, hexchange, ?_⟩
  exact deriveKeys_succeeds (s := (s.exchanging encrypted ⟨[], 167, 166⟩).carrying _)
    hsuite hmaster hblock hkeys

def finish : Action (Recorded Tape) ScriptedSource Unit := do
  sendChangeCipherSpec
  sendFinished
  receiveEnd 100

/-- The key exchange in the middle is the same on every tape with the recorded server's flight. -/
theorem handshake_of_answered {s t u : Session (Recorded Tape) ScriptedSource}
    (hstate : s.connection.state = .init) (hlisten : listen 100 ⟨0, 0⟩ "" .unspecified s = .ok () t)
    (ht : IsAnswered t) (hfinish : finish (keyed t) = .ok () u) : handshake s = .ok () u := by
  obtain ⟨v, hexchange, hkeys⟩ := exists_keyed ht
  obtain ⟨_, w, hchange, hrest⟩ := bind_eq_ok_iff.1 hfinish
  obtain ⟨_, x, hfinished, hend⟩ := bind_eq_ok_iff.1 hrest
  have hspeak : speak 100 t = .ok () x := by
    apply (bind_of_ok hexchange).trans
    apply (bind_of_ok hkeys).trans
    apply (bind_of_ok hchange).trans
    exact hfinished
  exact handshake_of_parts hstate hlisten hspeak hend

/-- So a handshake is evaluated in two parts, before the key exchange and behind it. -/
theorem exists_handshake {s : Session (Recorded Tape) ScriptedSource}
    {test : Session (Recorded Tape) ScriptedSource → Bool} (hstate : s.connection.state = .init)
    (hlisten : reaches (listen 100 ⟨0, 0⟩ "" .unspecified) s IsAnswered)
    (hfinish : reaches finish (keyed (after (listen 100 ⟨0, 0⟩ "" .unspecified) s)) test) :
    ∃ t, handshake s = .ok () t ∧ test t = true := by
  obtain ⟨hanswered, ht⟩ := eq_ok_of_reaches hlisten
  obtain ⟨hfinished, htest⟩ := eq_ok_of_reaches hfinish
  exact ⟨_, handshake_of_answered hstate hanswered (of_decide_eq_true ht) hfinished, htest⟩

/-- What is left for a session that is established: nothing is waiting in the reader, the tape has the
record with the data, and the random numbers go on. -/
def IsWaiting (s : Session (Recorded Tape) ScriptedSource) : Prop :=
  s.connection.state = .established ∧ s.connection.reader.buffer = [] ∧
    s.transport.inner.chunks.flatten.length = 31 ∧ s.random.next ≠ 0

instance (s : Session (Recorded Tape) ScriptedSource) : Decidable (IsWaiting s) := by
  unfold IsWaiting
  infer_instance

/-- The recorded server is played back to a client, which finishes its handshake under GCM, gets the
server's data, is still connected and then waits in vain for more. -/
theorem sample_run : ∃ t u : Session (Recorded Tape) ScriptedSource,
    handshake client = .ok () t ∧ IsWaiting t ∧
    t.connection.suite = some .rsaAes128GcmSha256 ∧
    (afterCalls calls t).connection.state.isEstablished = true ∧
    delivered calls t = [104, 105] ∧
    Session.recv 5 9 (afterCalls calls t) = .error (.failed .timeout) u := by
  have hfinish : reaches finish (keyed answered) fun t =>
      decide (IsWaiting t ∧ t.connection.suite = some .rsaAes128GcmSha256 ∧
        (afterCalls calls t).connection.state.isEstablished = true ∧
        delivered calls t = [104, 105] ∧
        stop? (Session.recv 5 9) (afterCalls calls t) = some (.failed .timeout)) := by
    decide +kernel
  obtain ⟨t, hhandshake, htest⟩ := exists_handshake rfl client_reaches_answered hfinish
  obtain ⟨hwaiting, hsuite, hestablished, hbytes, hmore⟩ := of_decide_eq_true htest
  obtain ⟨u, hrecv⟩ := stop?_eq_some hmore
  exact ⟨t, u, hhandshake, hwaiting, hsuite, hestablished, hbytes, hrecv⟩

/-- What becomes of the handshake and of the calls that get data. -/
theorem sample_established : ∃ t : Session (Recorded Tape) ScriptedSource,
    handshake client = .ok () t ∧ t.connection.suite = some .rsaAes128GcmSha256 ∧
    (afterCalls calls t).connection.state.isEstablished = true ∧
    delivered calls t = [104, 105] := by
  obtain ⟨t, _, hhandshake, -, hsuite, hestablished, hbytes, -⟩ := sample_run
  exact ⟨t, hhandshake, hsuite, hestablished, hbytes⟩

end TlsClient.Simulation.Tape
