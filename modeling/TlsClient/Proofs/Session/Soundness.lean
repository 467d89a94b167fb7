import TlsClient.Proofs.Session.Completion
import TlsClient.Proofs.Session.Handshake

namespace TlsClient.Session

open Network Simulation

variable {τ ρ : Type}

/-- The bytes that arrived from `s` to `t` are the server's side of the conversation `c`, and its
Finished message, at the beginning of `finale`, has the expected verify data. -/
structure Verified (s t : Session (Recorded τ) ρ) (c : Conversation ρ)
    (finale : List (Record × Bytes)) (expected : Bytes) : Prop where
  received : t.transport.received = s.transport.received ++ wire c.flight ++ c.change.toBytes ++
    wire (finale.map Prod.fst) ++ t.connection.reader.buffer
  -- The flight: handshake records in the clear.
  flight : ∀ r ∈ c.flight, r.Acceptable ∧ r.contentType = .handshake
  fragments : c.flight.flatMap Record.fragment = c.answer.messages.flatten
  framed : ∀ m ∈ c.answer.messages, Handshake.IsFramed m
  isHello : IsHello none c.answer.hello c.serverHello
  version : c.serverHello.version = .tls12
  suite : c.serverHello.suite ∈ s.config.suites
  compression : c.serverHello.compression = .null
  isCertificate : IsCertificate (some c.serverHello.suite) c.answer.certificate c.serverKey
  serverKey : t.connection.serverKey = some c.serverKey
  -- The change of the cipher, and what opens under the server's keys after it.
  change : ChangesCipher c.change
  encrypted : ∀ x ∈ finale, x.1.Acceptable ∧ x.1.contentType = .handshake
  keyed : Keyed t.connection c.serverHello.suite c.keys
  opened : (c.protection .server).Opens s.config.verifyMac 0 finale
  finished : [20, 0, 0, 12] ++ expected <+: contents finale
  length_expected : expected.length = 12
  expected : Prf.verifyData t.connection.masterSecret "server finished"
    (Sha256.hash c.transcript) = .ok expected
  -- The transcript is about the messages that the client has sent.
  sends : ∃ finished : Record, Sends s t (opening c.clientHello c.exchange ++ [finished]) ∧
    (c.protection .client).unprotect ⟨0, .handshake, .tls12⟩ finished.fragment true =
      .ok (finishedMessage c.verifyData)

variable [RandomSource ρ]

/-- With verification a handshake ends with a Finished message that was verified. -/
theorem verified_of_handshaken {host : String} {s t : Session (Recorded τ) ρ} {c : Conversation ρ}
    (h : Handshaken host s t c) (hverify : s.config.verifyFinished = true) :
    ∃ finale expected, Verified s t c finale expected := by
  obtain ⟨u, hended, hconfig, hreceived, hread, -, hsequence, hmaster, htranscript⟩ := h.ended
  cases hended with
  | skipped hskip =>
    rw [hconfig, hverify] at hskip
    cases hskip
  | verified _ xs expected hexpected hlength hintake hall hbytes =>
    have hopened := hintake.opened
    rw [hread] at hopened
    rw [hconfig, hsequence] at hopened
    rw [hmaster, htranscript] at hexpected
    refine ⟨xs, expected, {
      flight := h.flight
      fragments := h.fragments
      framed := h.agrees.framed
      isHello := h.agrees.isHello
      version := h.agrees.version
      suite := h.agrees.suite
      compression := h.agrees.compression
      isCertificate := h.agrees.isCertificate
      serverKey := h.serverKey
      change := h.change
      encrypted := fun x hx => ⟨hintake.acceptable x hx, hall x hx⟩
      keyed := h.keyed
      opened := hopened.1
      finished := ⟨_, hbytes.symm⟩
      length_expected := hlength
      expected := hexpected
      received := hintake.received hreceived
      sends := ?_ }⟩
    exact ⟨_, h.sends, Protection.unprotect_protect ..⟩

variable [Transport τ]

/-- A client with the check of the server's Finished message turned on finishes its handshake with
nobody who does not say the right things in the right order and knows the master secret. -/
theorem handshake_sound (fuel : Nat) (now : Clock) (host : String) (peer : Endpoint)
    {s t : Session (Recorded τ) ρ} (hs : Reachable s) (hverify : s.config.verifyFinished = true)
    (h : handshake fuel now host peer s = .ok () t) :
    ∃ c finale expected, Verified s t c finale expected := by
  obtain ⟨c, hc⟩ := (handshake_ends fuel now host peer s hs.connection_eq_fresh).of_ok h
  exact ⟨c, verified_of_handshaken hc hverify⟩

/-- What the recorded server has said was right. -/
theorem sample_verified : ∃ t c finale expected,
    Tape.handshake Tape.client = .ok () t ∧
    Verified Tape.client t c finale expected := by
  obtain ⟨t, ht, -⟩ := Tape.sample_established
  obtain ⟨c, finale, expected, h⟩ := handshake_sound 100 ⟨0, 0⟩ "" .unspecified
    (s := Tape.client) (.start ..) rfl ht
  exact ⟨t, c, finale, expected, ht, h⟩

end TlsClient.Session
