import TlsClient.Proofs.Session.KeyAgreement
import TlsClient.Proofs.Session.Reassembly

namespace TlsClient.Session

open Network

variable {τ ρ : Type}

def switching (s : Session (Recorded τ) ρ) (inner : τ) (received : Bytes) (reader : RecordReader) :
    Session (Recorded τ) ρ :=
  { s with
    transport := { s.transport with inner, received }
    connection := { s.connection with
      readProtection := s.connection.pendingReadProtection
      pendingReadProtection := none
      serverSequence := 0
      reader } }

structure ChangesCipher (r : Record) : Prop where
  acceptable : r.Acceptable
  contentType : r.contentType = .changeCipherSpec
  fragment : r.fragment = [1]

variable [Transport τ]

/-- The change comes between two messages: nothing of one is buffered when it does. -/
theorem receiveChangeCipherSpec_ends (s : Session (Recorded τ) ρ)
    (hclear : s.connection.readProtection = none) :
    Ends receiveChangeCipherSpec s
      (fun _ t => ∃ record inner arrived reader, ChangesCipher record ∧
        s.connection.handshakeBuffer = [] ∧
        s.connection.reader.buffer ++ arrived = record.toBytes ++ reader.buffer ∧
        t = s.switching inner (s.transport.received ++ arrived) reader)
      (fun _ t => t.transport.sent = s.transport.sent) := by
  refine Ends.bind_mono (receive_ends s) ?_ ?_
  · intro e t h
    obtain ⟨inner, received, reader, sequence, rfl, -⟩ := h
    rfl
  intro r t h
  obtain ⟨record, content, inner, received, reader, sequence, rfl, rfl, hacceptable, -, hintake⟩ := h
  obtain ⟨arrived, hreceived, hbytes⟩ := hintake.arrival
  have hopened := hintake.opened
  rw [hclear] at hopened
  have hcontent : content = record.fragment := hopened.1 _ (List.mem_singleton_self _)
  dsimp only
  split
  · rename_i htype
    -- With no read keys in use yet, the content is the fragment.
    by_cases hfragment : content = changeCipherSpec
    · rw [if_neg (not_not_intro hfragment)]
      apply Ends.bind_current
      by_cases hbuffer : s.connection.handshakeBuffer = []
      · have hsame : ¬ (s.takingIn inner received reader sequence).connection.handshakeBuffer ≠ [] :=
          not_not_intro hbuffer
        rw [if_neg hsame]
        have hrest : s.connection.reader.buffer ++ arrived = record.toBytes ++ reader.buffer := by
          rw [← wire_singleton record]
          exact hbytes
        have htotal : received = s.transport.received ++ arrived := hreceived
        subst htotal
        refine ends_update ⟨record, inner, arrived, reader, ⟨hacceptable, htype, ?_⟩, hbuffer, hrest,
          rfl⟩
        exact hcontent.symm.trans hfragment
      · have hsame : (s.takingIn inner received reader sequence).connection.handshakeBuffer ≠ [] :=
          hbuffer
        rw [if_pos hsame]
        exact ends_fail rfl
    · rw [if_pos hfragment]
      exact ends_fail rfl
  · apply (heed_ends _ _).mono (fun _ _ h => h)
    intro e t h
    obtain ⟨lastAlert, rfl⟩ := h
    rfl
  · exact ends_fail rfl

/-- A Finished message is only accepted with the verify data of the transcript. -/
theorem receiveFinished_ends (fuel : Nat) (s : Session (Recorded τ) ρ) :
    Ends (receiveFinished fuel) s
      (fun _ t => ∃ xs expected,
        Prf.verifyData s.connection.masterSecret "server finished" s.connection.transcript.finish =
          .ok expected ∧
        expected.length = 12 ∧ Intake s t xs ∧ AllOf .handshake xs ∧
        s.connection.handshakeBuffer ++ contents xs =
          [20, 0, 0, 12] ++ expected ++ t.connection.handshakeBuffer ∧
        ∃ inner received lastAlert reader sequence buffer transcript,
          t = { s with
            transport := ⟨inner, s.transport.sent, received⟩
            lastAlert
            connection := { s.connection with
              reader, serverSequence := sequence, handshakeBuffer := buffer, transcript } })
      (fun _ t => t.transport.sent = s.transport.sent) := by
  refine Ends.bind_mono (verifyDataFor_ends "server finished" s) ?_ ?_
  · intro e t h
    rw [h]
  intro expected t h
  obtain ⟨rfl, hexpected⟩ := h
  refine Ends.bind_mono (receiveMessage_ends fuel t) ?_ ?_
  · intro e u h
    obtain ⟨_, _, _, _, _, _, _, rfl⟩ := h
    rfl
  intro m u h
  obtain ⟨hreceives, hpending, hframed, xs, hintake, hall, hbytes⟩ := h
  have hsent : u.transport.sent = t.transport.sent := by
    obtain ⟨_, _, _, _, _, _, _, rfl⟩ := hreceives
    rfl
  refine Ends.bind_current (Ends.bind_check (fun message hparse => ?_) fun _ _ => hsent)
  obtain ⟨header, body⟩ := message
  cases body with
  | finished finished =>
    dsimp only
    -- Only here is it decided whether the server knows the master secret.
    by_cases hverify : finished.verify expected = true
    · rw [if_pos hverify]
      obtain ⟨hlength, rfl⟩ := Handshake.eq_finished hframed hparse rfl
      have hdata : finished.verifyData = expected := (Bytes.agree_iff _ _).1 hverify
      rw [hdata] at hlength
      refine ends_update ⟨xs, expected, hexpected, hlength, ?_, hall, hdata ▸ hbytes, ?_⟩
      · exact List.append_nil xs ▸ hintake.trans (Intake.of_same rfl rfl rfl rfl rfl)
      · obtain ⟨inner, received, lastAlert, reader, sequence, buffer, pending, rfl⟩ := hreceives
        have hsame : pending = t.connection.pending := hpending
        subst hsame
        exact ⟨inner, received, lastAlert, reader, sequence, buffer, _, rfl⟩
    · rw [if_neg hverify]
      exact ends_fail hsent
  | _ => exact ends_fail hsent

/-- The record that is skipped is counted and not opened, so nothing is required of its content. -/
theorem skipFinished_ends (s : Session (Recorded τ) ρ) :
    Ends skipFinished s
      (fun _ t => ∃ (record : Record) (inner : τ) (arrived : Bytes) (reader : RecordReader),
        record.Acceptable ∧ record.contentType = .handshake ∧
        s.connection.reader.buffer ++ arrived = record.toBytes ++ reader.buffer ∧
        s.connection.serverSequence.toNat + 1 < UInt64.size ∧
        t = s.takingIn inner (s.transport.received ++ arrived) reader
          (s.connection.serverSequence + 1))
      (fun _ t => t.transport.sent = s.transport.sent) := by
  refine Ends.bind_mono (receiveWire_ends s) ?_ ?_
  · intro e t h
    obtain ⟨inner, arrived, reader, rfl, -⟩ := h
    rfl
  intro record t h
  obtain ⟨hacceptable, inner, arrived, reader, rfl, hbytes⟩ := h
  refine Ends.bind_current (Ends.bind_check (fun sequence hnext => ?_) fun _ _ => rfl)
  obtain ⟨hroom, rfl⟩ := nextSequence_eq_ok hnext
  apply Ends.bind_update
  by_cases htype : record.contentType = .handshake
  · rw [if_pos htype]
    exact ends_pure ⟨record, inner, arrived, reader, hacceptable, htype, hbytes, hroom, rfl⟩
  · rw [if_neg htype]
    exact ends_fail rfl

/-- The end of the handshake as the session `u` that has just taken the change of the cipher goes
through it: the Finished message is verified, or one record is skipped. -/
inductive Ended (u t : Session (Recorded τ) ρ) : Prop
  | verified (hverify : u.config.verifyFinished = true) (xs : List (Record × Bytes))
    (expected : Bytes)
    (hexpected : Prf.verifyData u.connection.masterSecret "server finished"
      u.connection.transcript.finish = .ok expected)
    (hlength : expected.length = 12) (hintake : Intake u t xs) (hall : AllOf .handshake xs)
    (hbytes : contents xs = [20, 0, 0, 12] ++ expected ++ t.connection.handshakeBuffer)
  | skipped (hverify : u.config.verifyFinished = false) (record : Record)
    (hacceptable : record.Acceptable) (htype : record.contentType = .handshake) (arrived : Bytes)
    (hreceived : t.transport.received = u.transport.received ++ arrived)
    (hbytes : u.connection.reader.buffer ++ arrived =
      record.toBytes ++ t.connection.reader.buffer)
    (hsequence : t.connection.serverSequence = 1)

/-- A session is established by the change of the server's cipher and the end of its handshake. Its
outgoing side and what was agreed stay as they were. -/
theorem receiveEnd_ends (fuel : Nat) (s : Session (Recorded τ) ρ)
    (hclear : s.connection.readProtection = none) :
    Ends (receiveEnd fuel) s
      (fun _ t => ∃ record inner arrived reader, ChangesCipher record ∧
        s.connection.handshakeBuffer = [] ∧
        s.connection.reader.buffer ++ arrived = record.toBytes ++ reader.buffer ∧
        Ended (s.switching inner (s.transport.received ++ arrived) reader) t ∧
        ∃ inner received lastAlert reader sequence buffer transcript,
          t = { s with
            transport := ⟨inner, s.transport.sent, received⟩
            lastAlert
            connection := { s.connection with
              state := .established
              readProtection := s.connection.pendingReadProtection
              pendingReadProtection := none
              reader, serverSequence := sequence, handshakeBuffer := buffer, transcript } })
      (fun _ t => t.transport.sent = s.transport.sent) := by
  have hlast {state state' : State} (h : state.next? .serverFinished = some state') :
      state' = .established := by
    have hfinished : State.next? .finishedSent .serverFinished = some .established := rfl
    exact (State.eq_of_next? (by decide) (by decide) h hfinished).2
  apply Ends.bind (receiveChangeCipherSpec_ends s hclear)
  intro _ u h
  obtain ⟨record, inner, arrived, reader, hchange, hbuffer, hbytes, rfl⟩ := h
  apply Ends.bind_get
  dsimp only
  -- From here on both ways start with sequence number zero.
  by_cases hverify : s.config.verifyFinished = true
  · have hconfig : (s.switching inner (s.transport.received ++ arrived)
        reader).config.verifyFinished = true := hverify
    rw [if_pos hconfig]
    apply Ends.bind (receiveFinished_ends fuel _)
    intro _ v h
    obtain ⟨xs, expected, hexpected, hlength, hintake, hall, hcontents, inner', received', lastAlert,
      reader', sequence, buffer, transcript, rfl⟩ := h
    refine ends_advance (fun state hstate => ?_) fun _ => rfl
    obtain rfl := hlast hstate
    refine ⟨record, inner, arrived, reader, hchange, hbuffer, hbytes, ?_, inner', received',
      lastAlert, reader', sequence, buffer, transcript, rfl⟩
    refine .verified hconfig xs expected hexpected hlength ?_ hall ?_
    · exact List.append_nil xs ▸ hintake.trans (Intake.of_same rfl rfl rfl rfl rfl)
    · rw [← hcontents]
      have hempty : (s.switching inner (s.transport.received ++ arrived)
          reader).connection.handshakeBuffer = [] := hbuffer
      rw [hempty, List.nil_append]
  · have hconfig : ¬ (s.switching inner (s.transport.received ++ arrived)
        reader).config.verifyFinished = true := hverify
    rw [if_neg hconfig]
    apply Ends.bind (skipFinished_ends _)
    intro _ v h
    obtain ⟨skipped, inner', arrived', reader', hacceptable, htype, hskipped, -, rfl⟩ := h
    refine ends_advance (fun state hstate => ?_) fun _ => rfl
    obtain rfl := hlast hstate
    refine ⟨record, inner, arrived, reader, hchange, hbuffer, hbytes, ?_, inner', _, s.lastAlert,
      reader', 1, _, _, rfl⟩
    exact .skipped (Bool.eq_false_iff.2 hverify) skipped hacceptable htype arrived' rfl hskipped rfl

end TlsClient.Session
