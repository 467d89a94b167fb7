import TlsClient.Proofs.Session.Completion
import TlsClient.Proofs.Session.Handshake
import TlsClient.Proofs.Session.Steps
import TlsClient.Proofs.Wire.Bodies

namespace TlsClient.Session

open Network Simulation

variable {τ ρ α β : Type}

/-- The random value of the server's hello stands behind its header and its version. -/
theorem IsHello.random {suite : Option CipherSuite} {m : Bytes} {hello : ServerHello}
    (h : IsHello suite m hello) : (m.drop 6).take 32 = hello.random.toBytes := by
  obtain ⟨header, h⟩ := h
  simp only [Handshake.parse, Wire.Parser.bind_eq_ok_iff, Wire.Parser.take_eq_ok_iff,
    Wire.Parser.within_eq_ok_iff, Wire.Parser.pure_eq_ok_iff,
    HandshakeHeader.parse_eq_ok_iff] at h
  obtain ⟨header', _, ⟨-, -, rfl⟩, body, _, ⟨-, rfl⟩, _, _, ⟨hbody, rfl⟩, hmessage, rfl⟩ := h
  cases hmessage
  obtain ⟨-, hparse⟩ := Handshake.kind_of_parse hbody
  obtain ⟨rest, rfl⟩ := ServerHello.eq_of_parse hparse
  rw [List.append_nil, List.append_assoc, ← List.append_assoc]
  apply drop_take_of_append
  · rw [List.length_append, HandshakeHeader.length_toBytes, ProtocolVersion.toBytes,
      Bytes.length_ofNat]
    rfl
  · exact hello.random.length_toBytes

/-- What was said before the client's Finished message, and what is in it. -/
structure Attestation (ρ : Type) extends Preparation where
  master : Bytes
  verifyData : Bytes
  /-- The random numbers that the message was sealed with. -/
  random : ρ

def Attestation.finished (a : Attestation ρ) : Outgoing ρ :=
  ⟨.handshake, finishedMessage a.verifyData, a.random⟩

variable [RandomSource ρ]

/-- From `s` to `t` a client has sent its Finished message with the verify data that `a` says, and
the other parts of `a` are what was sent and received before. -/
structure Attests (host : String) (s t : Session (Recorded τ) ρ) (a : Attestation ρ) : Prop where
  sends : Sends s t (opening a.clientHello a.exchange ++ (a.protection .client).sealAll [a.finished])
  opens : (a.protection .client).readAt true 0 ((a.protection .client).sealAt 0 a.finished).toBytes =
    some (.handshake, finishedMessage a.verifyData)
  clientHello : ∃ clientRandom, a.clientHello = helloMessage s.config clientRandom host
  received : s.transport.received ++ wire a.flight <+: t.transport.received
  flight : ∀ r ∈ a.flight, r.Acceptable ∧ r.contentType = .handshake
  fragments : a.flight.flatMap Record.fragment = a.answer.messages.flatten ++ a.buffered
  agrees : Agrees s.config a.answer a.serverHello a.serverKey
  preMaster : IsPreMaster a.preMaster
  encrypts : a.serverKey.Encrypts a.preMaster a.encrypted
  master : Prf.expand a.preMaster "master secret"
    ((a.clientHello.drop 6).take 32 ++ (a.answer.hello.drop 6).take 32) 48 = .ok a.master
  keys : ∃ block, Prf.expand a.master "key expansion"
      ((a.answer.hello.drop 6).take 32 ++ (a.clientHello.drop 6).take 32)
      a.serverHello.suite.keyBlockLength = .ok block ∧
    KeyMaterial.ofKeyBlock a.serverHello.suite block = .ok a.keys
  verifyData : Prf.expand a.master "client finished"
    (Sha256.hash (a.clientHello ++ a.answer.hello ++ a.answer.certificate ++ [14, 0, 0, 0] ++
      a.exchange)) 12 = .ok a.verifyData

/-- What was attested stays so while nothing more is sent. -/
theorem Attests.later {host : String} {s t u : Session (Recorded τ) ρ} {a : Attestation ρ}
    (h : Attests host s t a) (hsent : u.transport.sent = t.transport.sent)
    (hreceived : t.transport.received <+: u.transport.received) : Attests host s u a :=
  { h with
    sends := hsent.trans h.sends
    received := h.received.trans hreceived }

/-- A session that is prepared and has offered its Finished message has attested what it is
prepared with. -/
theorem Prepared.attests {host : String} {s t u : Session (Recorded τ) ρ} {p : Preparation}
    {verifyData : Bytes} (h : Prepared host s t p)
    (hdata : Prf.verifyData t.connection.masterSecret "client finished"
      t.connection.transcript.finish = .ok verifyData)
    (hshort : (finishedMessage verifyData).length ≤ Record.maxPlaintext)
    (hsends : Sends t u [(p.protection .client).sealAt 0
      ⟨.handshake, finishedMessage verifyData, t.random⟩])
    (hreceived : t.transport.received <+: u.transport.received) :
    Attests host s u ⟨p, t.connection.masterSecret, verifyData, t.random⟩ := by
  have hclient : (p.clientHello.drop 6).take 32 = t.connection.clientRandom.toBytes := by
    rw [h.clientHello, helloMessage_random]
  have hserver : (p.answer.hello.drop 6).take 32 = p.serverHello.random.toBytes :=
    h.agrees.isHello.random
  have hrandom : t.connection.serverRandom = p.serverHello.random := h.since.serverRandom
  have htold : t.connection.transcript = Sha256.empty.update p.agreement := h.since.transcript
  obtain ⟨-, block, hblock, hkeys⟩ := h.keyed
  exact {
    sends := h.since.sends.trans hsends
    opens := Protection.readAt_sealAt _ true 0 rfl hshort
    clientHello := ⟨t.connection.clientRandom, h.clientHello⟩
    received := by
      have hheard : t.transport.received =
          s.transport.received ++ wire p.flight ++ t.connection.reader.buffer := h.since.received
      rw [hheard] at hreceived
      exact (List.prefix_append _ _).trans hreceived
    flight := h.flight
    fragments := h.fragments
    agrees := h.agrees
    preMaster := h.preMaster
    encrypts := h.encrypts
    master := by
      rw [hclient, hserver]
      exact h.master
    keys := by
      rw [hclient, hserver, ← hrandom]
      exact ⟨block, hblock, hkeys⟩
    verifyData := by
      rw [htold] at hdata
      rw [List.append_assoc p.clientHello, List.append_assoc p.clientHello]
      exact hdata }

variable [Transport τ]

/-- Whatever a prepared session comes to, its preparation was attested or no further record was
sent. -/
theorem finish_attests (fuel : Nat) {s t : Session (Recorded τ) ρ} {host : String} {p : Preparation}
    (h : Prepared host s t p) :
    Ends (do
        sendFinished
        receiveEnd fuel : Action (Recorded τ) ρ Unit) t
      (fun _ v => Sends s v (opening p.clientHello p.exchange) ∨ ∃ a, Attests host s v a)
      (fun _ v => Sends s v (opening p.clientHello p.exchange) ∨ ∃ a, Attests host s v a) := by
  have hsequence := h.clientSequence
  have hfinished := (sendFinished_ends t _ h.writeProtection).and (Proceeds.sendFinished t)
  rw [hsequence] at hfinished
  refine Ends.bind_mono hfinished ?_ ?_
  · intro e u hu
    obtain ⟨hu, hsteps⟩ := hu
    rcases hu with hu | ⟨verifyData, hdata, hshort, -, hsends⟩
    · exact .inl (hu.trans h.since.sends)
    · exact .inr ⟨_, h.attests hdata hshort hsends hsteps.received⟩
  intro _ u hu
  obtain ⟨⟨inner, random, verifyData, state, hdata, hshort, -, -, hu⟩, hsteps⟩ := hu
  have hsends : Sends t u [(p.protection .client).sealAt 0
      ⟨.handshake, finishedMessage verifyData, t.random⟩] := by
    rw [hu]
    rfl
  have hclear : u.connection.readProtection = none := by
    rw [hu]
    exact h.since.readProtection
  have hattests := h.attests hdata hshort hsends hsteps.received
  -- The server's end sends nothing, so what was attested stays so whatever it comes to.
  refine ((receiveEnd_ends fuel _ hclear).and (Proceeds.receiveEnd fuel _)).mono ?_ ?_
  · intro _ v hv
    obtain ⟨⟨_, _, _, _, _, _, _, _, _, _, _, _, _, _, _, rfl⟩, hmore⟩ := hv
    exact .inr ⟨_, hattests.later rfl hmore.received⟩
  · intro e v hv
    exact .inr ⟨_, hattests.later hv.1 hv.2.received⟩

/-- A handshake that has sent a fourth record, whatever becomes of it afterwards, has sent a Finished
message that attests the transcript. The first three records are the client's hello, its key exchange
and its change of cipher. -/
theorem finished_attests_transcript (fuel : Nat) (now : Clock) (host : String) (peer : Endpoint)
    {s : Session (Recorded τ) ρ} (hs : Reachable s)
    (hsent : s.transport.sent.length + 3 <
      (after (handshake fuel now host peer) s).transport.sent.length) :
    ∃ a, Attests host s (after (handshake fuel now host peer) s) a := by
  revert hsent
  refine Ends.after (P := fun t => s.transport.sent.length + 3 < t.transport.sent.length →
    ∃ a, Attests host s t a) ?_
  apply Ends.bind_current
  dsimp only
  by_cases hstate : s.connection.state = .init
  · rw [if_pos hstate]
    apply orFail_ends
    apply negotiate_prepares fuel now host peer s (hs.connection_eq_fresh hstate)
    · intro e t clientRandom encrypted hbegun hsent
      obtain ⟨records, hbegins, -, hsends⟩ := hbegun
      have hthree : records.length ≤ 3 := hbegins.length_le
      exact absurd hsent (hsends.not_more hthree)
    · intro t p hprepared
      refine (finish_attests fuel hprepared).mono ?_ ?_
      · intro _ u hu hsent
        rcases hu with hsends | hattests
        · exact absurd hsent (hsends.not_more (Nat.le_refl 3))
        · exact hattests
      · intro e u hu hsent
        rcases hu with hsends | hattests
        · exact absurd hsent (hsends.not_more (Nat.le_refl 3))
        · obtain ⟨a, ha⟩ := hattests
          exact ⟨a, ha.later rfl (List.prefix_refl _)⟩
  · rw [if_neg hstate]
    apply ends_fail
    intro hsent
    omega

omit [Transport τ] in
/-- A handshake sends four records. -/
theorem Handshaken.length_sent {host : String} {s t : Session (Recorded τ) ρ} {c : Conversation ρ}
    (h : Handshaken host s t c) : s.transport.sent.length + 4 = t.transport.sent.length := by
  rw [h.sends, List.length_append, List.length_map]
  rfl

/-- The client of the recorded server has sent four records, the last one with its Finished
message. -/
theorem sample_attested :
    Tape.client.transport.sent.length + 3 <
      (after Tape.handshake Tape.client).transport.sent.length ∧
    ∃ a, Attests "" Tape.client (after Tape.handshake Tape.client) a := by
  obtain ⟨t, ht, -⟩ := Tape.sample_established
  have hafter : after Tape.handshake Tape.client = t := by
    rw [after, ht]
  have hrun : Tape.handshake = Session.handshake 100 ⟨0, 0⟩ "" .unspecified := rfl
  obtain ⟨c, hc⟩ := (handshake_ends 100 ⟨0, 0⟩ "" .unspecified Tape.client fun _ => rfl).of_ok ht
  have hfour : Tape.client.transport.sent.length + 3 <
      (after Tape.handshake Tape.client).transport.sent.length := by
    rw [hafter, ← hc.length_sent]
    exact Nat.lt_succ_self _
  rw [hrun] at hfour ⊢
  exact ⟨hfour,
    finished_attests_transcript 100 ⟨0, 0⟩ "" .unspecified (s := Tape.client) (.start ..) hfour⟩

end TlsClient.Session
