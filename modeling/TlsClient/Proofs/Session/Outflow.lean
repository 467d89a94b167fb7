import TlsClient.Proofs.Session.Completion
import TlsClient.Proofs.Session.Handshake

namespace TlsClient.Session

open Network Simulation

variable {τ ρ : Type} [RandomSource ρ]

/-- How many records one set of keys protects: the last sequence number is never used. -/
def recordLimit : Nat := UInt64.size - 1

/-- What a session has sent is `before` and the messages of `ms` sealed one after the other; these are
the first ones of those that it was given to send, all of them as long as there are sequence numbers.
The session counts them until it is closed. -/
structure Outflow (before : List Bytes) (p : Protection) (s : Session (Recorded τ) ρ)
    (ms : List (Outgoing ρ)) (given : List (ContentType × Bytes)) : Prop where
  sent : s.transport.sent = before ++ (p.sealAll ms).map Record.toBytes
  messages : ms.map Outgoing.message = given.take recordLimit
  canonical : ∀ m ∈ ms, m.contentType.Canonical
  short : ∀ m ∈ ms, m.content.length ≤ Record.maxPlaintext
  counted : s.connection.state ≠ .init → s.connection.clientSequence.toNat = ms.length
  ready : s.connection.state.isEstablished = true →
    s.connection.writeProtection = some p ∧ s.connection.link.isSome = true

namespace Outflow

variable {before : List Bytes} {p : Protection} {s t : Session (Recorded τ) ρ}
  {ms : List (Outgoing ρ)} {given : List (ContentType × Bytes)}

/-- All messages are sent as long as there are sequence numbers, and none after that. -/
theorem length_eq (h : Outflow before p s ms given) : ms.length = min recordLimit given.length := by
  rw [← List.length_take, ← h.messages, List.length_map]

/-- What sends nothing and counts nothing leaves the outflow as it is. -/
theorem of_same (h : Outflow before p s ms given) (hsent : t.transport.sent = s.transport.sent)
    (hcounted : t.connection.state ≠ .init →
      s.connection.state ≠ .init ∧ t.connection.clientSequence = s.connection.clientSequence)
    (hready : t.connection.state.isEstablished = true →
      s.connection.state.isEstablished = true ∧
      t.connection.writeProtection = s.connection.writeProtection ∧
      t.connection.link = s.connection.link) : Outflow before p t ms given := by
  refine ⟨hsent.trans h.sent, h.messages, h.canonical, h.short, ?_, ?_⟩
  · intro ht
    obtain ⟨hs, hsequence⟩ := hcounted ht
    rw [hsequence]
    exact h.counted hs
  · intro ht
    obtain ⟨hs, hwrite, hlink⟩ := hready ht
    rw [hwrite, hlink]
    exact h.ready hs

/-- A message of an established session is sealed with the next sequence number, or there is none
left. -/
theorem of_attempted (h : Outflow before p s ms given) {message : ContentType × Bytes}
    (hs : s.connection.state.isEstablished = true) (htype : message.1.Canonical)
    (hlength : message.2.length ≤ Record.maxPlaintext) (ht : Attempted s message t) :
    ∃ more, Outflow before p t (ms ++ more) (given ++ [message]) := by
  obtain ⟨hwrite, hlink⟩ := h.ready hs
  have hinit : s.connection.state ≠ .init := by
    intro hinit
    rw [hinit] at hs
    cases hs
  have hcounted := h.counted hinit
  have hcount := h.length_eq
  have hlimit : recordLimit + 1 = UInt64.size := rfl
  have hstate := ht.state
  rcases ht with ht | ⟨hreason, random, rfl⟩
  -- It was sealed and offered; whether the transport has taken it makes no difference.
  · obtain ⟨-, hroom, inner, random, rfl⟩ := ht.eq_sealed hwrite
    -- There was room for the message, so nothing was left out before it.
    have hgiven : given.length < recordLimit := by omega
    refine ⟨[⟨message.1, message.2, s.random⟩], ?_, ?_, ?_, ?_, ?_, ?_⟩
    · have hnumber : UInt64.ofNat ms.length = s.connection.clientSequence := by
        rw [← hcounted, UInt64.ofNat_toNat]
      rw [Protection.sealAll_append_singleton, List.map_append, ← List.append_assoc, ← h.sent,
        Protection.sealAt, hnumber]
      rfl
    · rw [List.map_append, h.messages, List.take_of_length_le (Nat.le_of_lt hgiven),
        List.take_of_length_le]
      · rfl
      · rw [List.length_append]
        exact hgiven
    · exact List.forall_mem_append.2 ⟨h.canonical, List.forall_mem_singleton.2 htype⟩
    · exact List.forall_mem_append.2 ⟨h.short, List.forall_mem_singleton.2 hlength⟩
    · intro _
      have hnext :
          (s.connection.clientSequence + 1).toNat = s.connection.clientSequence.toNat + 1 := by
        rw [UInt64.toNat_add]
        exact Nat.mod_eq_of_lt hroom
      rw [List.length_append, ← hcounted]
      exact hnext
    · intro _
      exact ⟨hwrite, hlink⟩
  · -- Only the sequence numbers can have kept the message back, so it is beyond the limit.
    have hfull : UInt64.size ≤ s.connection.clientSequence.toNat + 1 := by
      rcases hreason with hnone | hlong | ⟨-, hfull⟩
      · rw [hnone] at hlink
        cases hlink
      · exact absurd hlong (Nat.not_lt.2 hlength)
      · exact hfull
    have hgiven : recordLimit ≤ given.length := by omega
    refine ⟨[], ?_⟩
    rw [List.append_nil]
    refine ⟨h.sent, ?_, h.canonical, h.short, h.counted, h.ready⟩
    rw [List.take_append_of_le_length hgiven]
    exact h.messages

theorem of_fresh (h : Outflow before p s ms given) (hsent : t.transport.sent = s.transport.sent)
    (ht : t.connection = .fresh) : Outflow before p t ms given := by
  refine h.of_same hsent ?_ ?_
  · intro hinit
    rw [ht] at hinit
    exact absurd rfl hinit
  · intro hestablished
    rw [ht] at hestablished
    cases hestablished

/-- A call adds its message to those that the session was given, and seals it if there is a sequence
number left. -/
theorem of_performed (h : Outflow before p s ms given) {c : Call} {bs : Bytes}
    (hc : Performed s c bs t) :
    ∃ more, Outflow before p t (ms ++ more) (given ++ s.messageOf c) := by
  have hnothing (ht : Outflow before p t ms given) (hmessage : s.messageOf c = []) :
      ∃ more, Outflow before p t (ms ++ more) (given ++ s.messageOf c) := by
    rw [hmessage, List.append_nil]
    exact ⟨[], (List.append_nil ms).symm ▸ ht⟩
  cases hc with
  | @sent data _ hs hlength ht =>
    have hmessage : s.messageOf (.send data) = [(.applicationData, data)] :=
      if_pos ⟨hs, hlength⟩
    rw [hmessage]
    exact h.of_attempted hs rfl hlength ht
  | refused hrefused => exact hnothing h (if_neg hrefused)
  | received ht _ =>
    refine hnothing ?_ rfl
    obtain ⟨_, _, _, _, _, _, _, rfl⟩ := ht
    exact h.of_same rfl (fun hinit => ⟨hinit, rfl⟩) fun hs => ⟨hs, rfl, rfl⟩
  | failed hs ht =>
    refine hnothing ?_ rfl
    obtain ⟨_, _, _, _, _, _, _, rfl⟩ := ht
    refine h.of_same rfl ?_ ?_
    · intro _
      refine ⟨?_, rfl⟩
      intro hinit
      rw [hinit] at hs
      cases hs
    · intro hestablished
      cases hestablished
  | closed ht =>
    have hsent := ht.sent
    by_cases hs : s.connection.state.isEstablished = true
    · have hmessage : s.messageOf .close = [(.alert, Alert.closeNotify.toBytes)] := if_pos hs
      rw [if_pos hs] at hsent
      obtain ⟨u, hu, hsent⟩ := hsent
      have htype : ContentType.alert.Canonical := rfl
      obtain ⟨more, hmore⟩ := h.of_attempted hs htype (by decide) hu
      rw [hmessage]
      exact ⟨more, hmore.of_fresh hsent ht.connection⟩
    · rw [if_neg hs] at hsent
      exact hnothing (h.of_fresh hsent ht.connection) (if_neg hs)

variable [Transport τ]

/-- By induction on the calls, what they send are their messages, sealed in order. -/
theorem afterCalls (h : Outflow before p s ms given) (calls : List Call) :
    ∃ more,
      Outflow before p (afterCalls calls s) (ms ++ more) (given ++ Session.messages calls s) := by
  induction calls generalizing s ms given with
  | nil => exact ⟨[], by rwa [Session.messages, List.append_nil, List.append_nil]⟩
  | cons c cs ih =>
    obtain ⟨first, hfirst⟩ := h.of_performed (performed c s)
    obtain ⟨rest, hrest⟩ := ih hfirst
    refine ⟨first ++ rest, ?_⟩
    rw [← List.append_assoc, Session.messages, ← List.append_assoc]
    exact hrest

end Outflow

/-- A handshake has sealed one message, the client's Finished message. -/
theorem Handshaken.outflow {host : String} {s t : Session (Recorded τ) ρ} {c : Conversation ρ}
    (h : Handshaken host s t c) :
    Outflow (s.transport.sent ++ (opening c.clientHello c.exchange).map Record.toBytes)
      (c.protection .client) t [c.finished] [c.finished.message] := by
  refine ⟨?_, ?_, ?_, ?_, ?_, ?_⟩
  · have hsends := h.sends
    rw [Sends, List.map_append, ← List.append_assoc] at hsends
    exact hsends
  · have hlimit : [c.finished.message].length ≤ recordLimit := Nat.le_of_ble_eq_true rfl
    rw [List.take_of_length_le hlimit]
    rfl
  · exact List.forall_mem_singleton.2 rfl
  · exact List.forall_mem_singleton.2 h.shortFinished
  · intro _
    rw [h.clientSequence]
    rfl
  · intro _
    exact ⟨h.writeProtection, h.link⟩

variable [Transport τ]

/-- Without an established session nothing is sent. -/
theorem sent_afterCalls {s : Session (Recorded τ) ρ} (calls : List Call)
    (hs : ¬ s.connection.state.isEstablished = true) :
    (afterCalls calls s).transport.sent = s.transport.sent := by
  induction calls generalizing s with
  | nil => rfl
  | cons c cs ih =>
    have hc := performed c s
    have hafter : ¬ (after (perform c) s).connection.state.isEstablished = true :=
      fun h => hs (isEstablished_of_performed hc h)
    apply (ih hafter).trans
    generalize handedOut c s = bs at hc
    generalize after (perform c) s = t at hc
    cases hc with
    | sent hestablished => exact absurd hestablished hs
    | refused => rfl
    | received h => exact h.sent
    | failed hestablished => exact absurd hestablished hs
    | closed h =>
      have hsent := h.sent
      rwa [if_neg hs] at hsent

end TlsClient.Session
