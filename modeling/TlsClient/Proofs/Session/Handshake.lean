import TlsClient.Proofs.Session.Preparation

namespace TlsClient.Session

open Network

variable {τ ρ : Type} [Transport τ] [RandomSource ρ]

/-- The two Finished messages. What the flight has left in the buffer is nothing, or the change of the
server's cipher would not have been accepted. -/
theorem finish_ends (fuel : Nat) {s t : Session (Recorded τ) ρ} {host : String} {p : Preparation}
    (h : Prepared host s t p) :
    Ends (do
        sendFinished
        receiveEnd fuel : Action (Recorded τ) ρ Unit) t
      (fun _ v => ∃ c, Handshaken host s v c)
      (fun _ v => Stopped s v p.clientHello p.exchange) := by
  have hsends := h.since.sends
  have hshort := h.since.short
  have hsequence := h.clientSequence
  have hsuite := h.agrees.suite
  refine Ends.bind_mono (sendFinished_ends t _ h.writeProtection) ?_ ?_
  · intro e u hu
    rcases hu with hu | ⟨verifyData, -, hm, -, hu⟩
    · exact .clear _ (List.prefix_refl _) hshort (hu.trans hsends)
    · rw [hsequence] at hu
      exact .sealed hshort p.serverHello.suite p.keys
        ⟨.handshake, finishedMessage verifyData, t.random⟩ hsuite rfl hm (hsends.trans hu)
  intro _ u hu
  obtain ⟨inner, random, verifyData, state, hdata, hfinished, -, -, rfl⟩ := hu
  rw [hsequence]
  have hsaid (r : Record) : Sends s (t.finishing (finishedMessage verifyData) r inner random state)
      (opening p.clientHello p.exchange ++ [r]) := hsends.trans rfl
  refine Ends.mono (receiveEnd_ends fuel _ ?_) ?_ ?_
  · exact h.since.readProtection
  · intro _ v hv
    obtain ⟨change, inner', arrived, reader, hchange, hbuffer, hbytes, hended, _, received, lastAlert,
      reader', sequence, buffer, transcript, rfl⟩ := hv
    refine ⟨⟨p.clientHello, p.flight, p.answer, p.serverHello, p.serverKey, p.exchange, p.keys,
      verifyData, t.random, change⟩, ?_⟩
    -- No byte of a message was left over when the cipher changed.
    have hempty : p.buffered = [] := h.since.buffered.symm.trans hbuffer
    have hfragments := h.fragments
    rw [hempty, List.append_nil] at hfragments
    have htold : t.connection.transcript = Sha256.empty.update p.agreement := h.since.transcript
    rw [htold] at hdata
    have harrived : t.transport.received ++ arrived =
        s.transport.received ++ wire p.flight ++ change.toBytes ++ reader.buffer := by
      have hbuffered : t.connection.reader.buffer ++ arrived = change.toBytes ++ reader.buffer :=
        hbytes
      have hreceived : t.transport.received =
          s.transport.received ++ wire p.flight ++ t.connection.reader.buffer := h.since.received
      rw [hreceived, List.append_assoc, hbuffered]
      simp only [List.append_assoc]
    -- The client's own Finished message is the last one that the server's covers.
    have hcovered : (t.connection.transcript.update (finishedMessage verifyData)).finish =
        Sha256.hash (p.agreement ++ finishedMessage verifyData) := by
      rw [htold, Sha256.update_update]
      rfl
    exact {
      config := h.since.config
      state := rfl
      link := h.since.link
      pending := h.since.pending
      clientHello := h.clientHello
      exchange := ⟨p.encrypted, rfl⟩
      sends := hsaid _
      short := hshort
      shortFinished := hfinished
      clientSequence := congrArg (· + 1) hsequence
      writeProtection := h.writeProtection
      agrees := h.agrees
      serverKey := h.since.serverKey
      keyed := h.keyed
      verifyData := hdata
      flight := h.flight
      fragments := hfragments
      change := hchange
      ended := ⟨_, hended, h.since.config, harrived, h.pendingReadProtection,
        h.pendingReadProtection, rfl, rfl, hcovered⟩ }
  · intro e v hv
    -- Everything was sent by then, and only the server's end was not as it should be.
    refine .sealed hshort p.serverHello.suite p.keys
      ⟨.handshake, finishedMessage verifyData, t.random⟩ hsuite rfl hfinished ?_
    exact hv.trans (hsaid _)

/-- A handshake of a fresh session ends with a conversation, or it stops on the way. -/
theorem negotiate_ends (fuel : Nat) (now : Clock) (host : String) (peer : Endpoint)
    (s : Session (Recorded τ) ρ) (hfresh : s.connection = .fresh) :
    Ends (negotiate fuel now host peer) s
      (fun _ t => ∃ c, Handshaken host s t c)
      (fun _ t => ∃ clientRandom encrypted,
        Stopped s t (helloMessage s.config clientRandom host) (exchangeMessage encrypted)) := by
  apply negotiate_prepares fuel now host peer s hfresh
  · intro e t clientRandom encrypted hbegun
    obtain ⟨records, hbegins, hshort, hsends⟩ := hbegun
    exact ⟨clientRandom, encrypted, .clear records hbegins hshort hsends⟩
  · intro t p hprepared
    refine (finish_ends fuel hprepared).mono (fun _ _ h => h) ?_
    intro e u hu
    rw [hprepared.clientHello] at hu
    exact ⟨t.connection.clientRandom, p.encrypted, hu⟩

/-- A handshake that fails leaves the session as it was, or in its error state after it has stopped on
the way. -/
theorem handshake_ends (fuel : Nat) (now : Clock) (host : String) (peer : Endpoint)
    (s : Session (Recorded τ) ρ)
    (hfresh : s.connection.state = .init → s.connection = .fresh) :
    Ends (handshake fuel now host peer) s
      (fun _ t => ∃ c, Handshaken host s t c)
      (fun _ t => (s.connection.state ≠ .init ∧ t = s) ∨
        t.connection.state = .error ∧ ∃ clientRandom encrypted,
          Stopped s t (helloMessage s.config clientRandom host) (exchangeMessage encrypted)) := by
  apply Ends.bind_current
  dsimp only
  by_cases hstate : s.connection.state = .init
  · rw [if_pos hstate]
    refine orFail_ends ((negotiate_ends fuel now host peer s (hfresh hstate)).mono ?_ ?_)
    · intro _ t ht
      exact ht
    · intro e t ht
      obtain ⟨clientRandom, encrypted, ht⟩ := ht
      exact .inr ⟨rfl, clientRandom, encrypted, ht.of_same rfl⟩
  · rw [if_neg hstate]
    exact ends_fail (.inl ⟨hstate, rfl⟩)

/-- A session in its first state has nothing left of any connection. -/
theorem Reachable.connection_eq_fresh {s : Session (Recorded τ) ρ} (hs : Reachable s)
    (hstate : s.connection.state = .init) : s.connection = .fresh := by
  induction hs with
  | start t config random => rfl
  | @handshake s hs fuel now host peer ih =>
    revert hstate
    refine Ends.after (P := fun t => t.connection.state = .init → t.connection = .fresh)
      ((handshake_ends fuel now host peer s ih).mono ?_ ?_)
    · intro _ t ht hstate
      obtain ⟨c, ht⟩ := ht
      cases ht.state.symm.trans hstate
    · intro e t ht hstate
      rcases ht with ⟨-, rfl⟩ | ⟨herror, -⟩
      · exact ih hstate
      · cases herror.symm.trans hstate
  | @call s hs c ih =>
    have hperformed := performed c s
    generalize handedOut c s = bs at hperformed
    generalize ht : after (perform c) s = t at hperformed hstate ⊢
    cases hperformed with
    | sent hs _ h =>
      -- Sending needs an established session, and leaves it established.
      rw [h.state] at hstate
      rw [hstate] at hs
      cases hs
    | refused _ => exact ih hstate
    | @received fuel room _ _ h _ =>
      -- Receiving keeps the state, so the session was fresh and nothing was received.
      have hbefore := ih (h.state.symm.trans hstate)
      have hidle : after (perform (.recv fuel room)) s = s := by
        apply after_recv_idle fuel room
        · rw [hbefore]
          rfl
        · rw [hbefore]
          exact Bool.false_ne_true
      rw [← ht, hidle, hbefore]
    | failed _ _ => cases hstate
    | closed h => exact h.connection

end TlsClient.Session
