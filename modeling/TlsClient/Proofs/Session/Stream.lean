import TlsClient.Proofs.Session.Completion
import TlsClient.Proofs.Session.Handshake
import TlsClient.Proofs.Session.Recording

namespace TlsClient.Session

open Network Simulation

variable {τ ρ : Type}

/-- In the conversation `c`, which began with `s`, the session has come to `t`: after the change of
the cipher the records of `skipped` were counted, those of `taken` were opened, and of their data the
bytes `bs` were handed out. -/
structure Streamed (s t : Session (Recorded τ) ρ) (c : Conversation ρ) (skipped : List Record)
    (taken : List (Record × Bytes)) (bs : Bytes) : Prop where
  received : t.transport.received = s.transport.received ++ wire c.flight ++ c.change.toBytes ++
    wire skipped ++ wire (taken.map Prod.fst) ++ t.connection.reader.buffer
  change : ChangesCipher c.change
  acceptable : ∀ r ∈ skipped ++ taken.map Prod.fst, r.Acceptable
  handshake : ∀ r ∈ skipped, r.contentType = .handshake
  length_skipped : skipped.length = if s.config.verifyFinished then 0 else 1
  readProtection : t.connection.readProtection = some (c.protection .server)
  opened : (c.protection .server).Opens s.config.verifyMac skipped.length taken
  serverSequence : t.connection.serverSequence.toNat = skipped.length + taken.length
  bytes : bs ++ t.connection.pending = applicationData taken

variable [RandomSource ρ]

/-- The stream starts with the end of the handshake: the records of the Finished message are opened and
carry no data, or the one record that is skipped takes up the first number. -/
theorem streamed_of_handshaken {host : String} {s t u : Session (Recorded τ) ρ} {c : Conversation ρ}
    {bs : Bytes} (h : Handshaken host s t c) (ht : HandsOut t u bs) :
    ∃ skipped taken, Streamed s u c skipped taken bs := by
  obtain ⟨v, hended, hconfig, hreceived, hread, hread', hsequence, -, -⟩ := h.ended
  obtain ⟨ys, hys, hbytes⟩ := ht
  rw [h.pending, List.nil_append] at hbytes
  cases hended with
  | verified hverify xs expected _ _ hxs hall _ =>
    have hintake := hxs.trans hys
    have hopened := hintake.opened
    rw [hread] at hopened
    rw [hconfig, hsequence] at hopened
    rw [hconfig] at hverify
    -- The records of the Finished message are the first ones, and they bring no data.
    have hnone : applicationData xs = [] := by
      apply applicationData_eq_nil
      intro x hx
      rw [hall x hx]
      decide
    refine ⟨[], xs ++ ys, {
      received := ?_
      change := h.change
      acceptable := ?_
      handshake := List.forall_mem_nil _
      length_skipped := by rw [hverify]; rfl
      readProtection := hintake.readProtection.trans hread
      opened := hopened.1
      serverSequence := hopened.2
      bytes := ?_ }⟩
    · rw [wire_nil, List.append_nil]
      exact hintake.received hreceived
    · exact List.forall_mem_map.2 hintake.acceptable
    · rw [applicationData_append, hnone, List.nil_append, hbytes]
  | skipped hverify record hacceptable htype arrived harrived hwire hone =>
    have hopened := hys.opened
    rw [hread'] at hopened
    rw [h.config, hone] at hopened
    rw [hconfig] at hverify
    -- The skipped record has number zero, so the next one to be opened has number one.
    have hstart : t.transport.received = s.transport.received ++ wire c.flight ++ c.change.toBytes ++
        wire [record] ++ t.connection.reader.buffer := by
      rw [harrived, hreceived, List.append_assoc, hwire, wire_singleton]
      simp only [List.append_assoc]
    refine ⟨[record], ys, {
      received := hys.received hstart
      change := h.change
      acceptable := ?_
      handshake := List.forall_mem_singleton.2 htype
      length_skipped := by rw [hverify]; rfl
      readProtection := hys.readProtection.trans hread'
      opened := hopened.1
      serverSequence := hopened.2
      bytes := hbytes.symm }⟩
    refine List.forall_mem_append.2 ?_
    exact ⟨List.forall_mem_singleton.2 hacceptable, List.forall_mem_map.2 hys.acceptable⟩

variable [Transport τ]

/-- Whatever calls a client makes and whatever the transport does in between, nothing of the server's
data is lost, repeated or out of order as long as the session is established. -/
theorem delivered_stream (fuel : Nat) (now : Clock) (host : String) (peer : Endpoint)
    {s t : Session (Recorded τ) ρ} (calls : List Call) (hs : Reachable s)
    (h : handshake fuel now host peer s = .ok () t)
    (ht : (afterCalls calls t).connection.state.isEstablished = true) :
    ∃ c skipped taken, Handshaken host s t c ∧
      Streamed s (afterCalls calls t) c skipped taken (delivered calls t) := by
  obtain ⟨c, hc⟩ := (handshake_ends fuel now host peer s hs.connection_eq_fresh).of_ok h
  obtain ⟨skipped, taken, hstream⟩ := streamed_of_handshaken hc (handsOut_afterCalls ht)
  exact ⟨c, skipped, taken, hc, hstream⟩

/-- The recorded server's data arrives in two pieces. -/
theorem sample_delivered : ∃ t c skipped taken,
    Tape.handshake Tape.client = .ok () t ∧ delivered Tape.calls t = [104, 105] ∧
    Handshaken "" Tape.client t c ∧
    Streamed Tape.client (afterCalls Tape.calls t) c skipped taken [104, 105] := by
  obtain ⟨t, ht, -, hestablished, hbytes⟩ := Tape.sample_established
  obtain ⟨c, skipped, taken, hc, hstream⟩ := delivered_stream 100 ⟨0, 0⟩ "" .unspecified
    (s := Tape.client) Tape.calls (.start ..) ht hestablished
  exact ⟨t, c, skipped, taken, ht, hbytes, hc, hbytes ▸ hstream⟩

/-- Over a transport that keeps no record the calls deliver what they would deliver over one that does:
the data of the records that it has received. -/
theorem unrecorded_stream (fuel : Nat) (now : Clock) (host : String) (peer : Endpoint)
    {s t : Session τ ρ} (calls : List Call) (hs : Reachable s)
    (h : handshake fuel now host peer s = .ok () t)
    (ht : (afterCalls calls t).connection.state.isEstablished = true) :
    ∃ r u : Session (Recorded τ) ρ, Reachable r ∧ r.unrecorded = s ∧
      handshake fuel now host peer r = .ok () u ∧ u.unrecorded = t ∧
      ∃ c skipped taken, Handshaken host r u c ∧
        Streamed r (afterCalls calls u) c skipped taken (delivered calls t) := by
  obtain ⟨r, hr, rfl⟩ := hs.exists_recorded
  obtain ⟨u, hu, rfl⟩ := (Mirrors.handshake fuel now host peer).exists_ok h
  rw [afterCalls_unrecorded] at ht
  rw [delivered_unrecorded]
  obtain ⟨c, hc⟩ := (handshake_ends fuel now host peer r hr.connection_eq_fresh).of_ok hu
  obtain ⟨skipped, taken, hstream⟩ := streamed_of_handshaken hc (handsOut_afterCalls ht)
  exact ⟨r, u, hr, rfl, hu, rfl, c, skipped, taken, hc, hstream⟩

end TlsClient.Session
