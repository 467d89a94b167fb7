import TlsClient.Proofs.Session.Inflow
import TlsClient.Proofs.Session.Transmission

namespace TlsClient.Session

open Network

variable {τ ρ : Type}

theorem unlink_ends [Transport τ] (s : Session (Recorded τ) ρ) :
    Ends unlink s
      (fun _ s' => ∃ inner, s' = { s with
        transport := { s.transport with inner }
        connection := { s.connection with link := none } })
      (fun _ s' => ∃ inner, s' = { s with
        transport := { s.transport with inner }
        connection := { s.connection with link := none } }) := by
  apply Ends.bind_current
  split
  · rename_i hlink
    refine ends_pure ⟨s.transport.inner, ?_⟩
    rw [← hlink]
  · rename_i id _
    apply Ends.bind_update
    unfold Ends operate
    simp only [Transport.close]
    cases Transport.close s.transport.inner id with
    | mk result inner =>
      cases result with
      | ok _ => exact ⟨inner, rfl⟩
      | error _ => exact ⟨inner, rfl⟩

/-- Without pending data and an established session receiving changes nothing. -/
theorem recv_idle (fuel room : Nat) [Transport τ] {s : Session τ ρ}
    (hpending : s.connection.pending = [])
    (hs : ¬ s.connection.state.isEstablished = true) :
    recv fuel room s = .error (.failed (.invalidState s.connection.state)) s := by
  apply Ends.eq_error
  apply Ends.bind_current
  dsimp only
  rw [if_pos hpending, if_neg hs]
  exact ends_fail ⟨rfl, rfl⟩

variable [RandomSource ρ]

/-- Nor does sending without an established session. -/
theorem send_idle (data : Bytes) [Transport τ] {s : Session τ ρ}
    (hs : ¬ s.connection.state.isEstablished = true) :
    send data s = .error (.failed (.invalidState s.connection.state)) s := by
  apply Ends.eq_error
  apply Ends.bind_current
  dsimp only
  rw [Bool.not_eq_true] at hs
  rw [if_pos (by rw [hs]; rfl)]
  exact ends_fail ⟨rfl, rfl⟩

/-- A message was attempted under the write keys: it was offered to the transport or withheld. -/
def Attempted (s : Session (Recorded τ) ρ) (message : ContentType × Bytes)
    (s' : Session (Recorded τ) ρ) : Prop :=
  Offered s message.1 message.2 s.connection.writeProtection s' ∨
    Withheld s message.2 s.connection.writeProtection s'

/-- Attempting a message neither receives anything nor changes the configuration. -/
theorem Attempted.same {s s' : Session (Recorded τ) ρ} {message : ContentType × Bytes}
    (h : Attempted s message s') :
    s'.config = s.config ∧ s'.transport.received = s.transport.received := by
  rcases h with h | ⟨-, random, rfl⟩
  · generalize s.connection.writeProtection = p at h
    cases h <;> exact ⟨rfl, rfl⟩
  · exact ⟨rfl, rfl⟩

theorem Attempted.state {s s' : Session (Recorded τ) ρ} {message : ContentType × Bytes}
    (h : Attempted s message s') : s'.connection.state = s.connection.state := by
  rcases h with h | ⟨-, random, rfl⟩
  · generalize s.connection.writeProtection = p at h
    cases h <;> rfl
  · rfl

/-- Sending hands out nothing and leaves what is pending. -/
theorem Attempted.handsOut {s s' : Session (Recorded τ) ρ} {message : ContentType × Bytes}
    (h : Attempted s message s') : HandsOut s s' [] := by
  rcases h with h | ⟨-, random, rfl⟩
  · generalize s.connection.writeProtection = p at h
    cases h <;> exact ⟨[], Intake.of_same rfl rfl rfl rfl rfl, List.append_nil _⟩
  · exact ⟨[], Intake.of_same rfl rfl rfl rfl rfl, List.append_nil _⟩

/-- What closing comes to: the farewell was attempted if the session was established, and nothing of
the connection is left. -/
structure Closed (s s' : Session (Recorded τ) ρ) : Prop where
  connection : s'.connection = .fresh
  config : s'.config = s.config
  received : s'.transport.received = s.transport.received
  sent : if s.connection.state.isEstablished then
      ∃ t, Attempted s (.alert, Alert.closeNotify.toBytes) t ∧ s'.transport.sent = t.transport.sent
    else s'.transport.sent = s.transport.sent

/-- The session `s'` is `s` with its connection at its start, after the farewell was attempted if `s`
was established. -/
def Reset (s s' : Session (Recorded τ) ρ) : Prop :=
  ∃ t inner, (if s.connection.state.isEstablished then
      Attempted s (.alert, Alert.closeNotify.toBytes) t else t = s) ∧
    s' = { t with transport := { t.transport with inner }, connection := .fresh }

theorem Reset.closed {s s' : Session (Recorded τ) ρ} (h : Reset s s') : Closed s s' := by
  obtain ⟨t, inner, ht, rfl⟩ := h
  by_cases hs : s.connection.state.isEstablished = true
  · rw [if_pos hs] at ht
    obtain ⟨hconfig, hreceived⟩ := ht.same
    refine ⟨rfl, hconfig, hreceived, ?_⟩
    rw [if_pos hs]
    exact ⟨t, ht, rfl⟩
  · rw [if_neg hs] at ht
    subst ht
    refine ⟨rfl, rfl, rfl, ?_⟩
    rw [if_neg hs]

/-- Everything that a call can do to a session and hand out. -/
inductive Performed (s : Session (Recorded τ) ρ) : Call → Bytes → Session (Recorded τ) ρ → Prop
  | sent {data : Bytes} {s' : Session (Recorded τ) ρ}
    (hs : s.connection.state.isEstablished = true) (hlength : data.length ≤ Record.maxPlaintext)
    (h : Attempted s (.applicationData, data) s') : Performed s (.send data) [] s'
  | refused {data : Bytes}
    (h : ¬ (s.connection.state.isEstablished = true ∧ data.length ≤ Record.maxPlaintext)) :
    Performed s (.send data) [] s
  | received {fuel room : Nat} {bs : Bytes} {s' : Session (Recorded τ) ρ} (h : Receives s s')
    (hbytes : HandsOut s s' bs) : Performed s (.recv fuel room) bs s'
  | failed {fuel room : Nat} {t : Session (Recorded τ) ρ}
    (hs : s.connection.state.isEstablished = true) (h : Receives s t) :
    Performed s (.recv fuel room) [] { t with connection := t.connection.failed }
  | closed {s' : Session (Recorded τ) ρ} (h : Closed s s') : Performed s .close [] s'

/-- No call establishes a session. -/
theorem isEstablished_of_performed {s s' : Session (Recorded τ) ρ} {c : Call} {bs : Bytes}
    (h : Performed s c bs s') (hs : s'.connection.state.isEstablished = true) :
    s.connection.state.isEstablished = true := by
  cases h with
  | sent hs _ _ => exact hs
  | refused _ => exact hs
  | received h _ => rwa [h.state] at hs
  | failed _ _ => cases hs
  | closed h =>
    rw [h.connection] at hs
    cases hs

/-- A call that leaves the session established hands out what it takes and loses nothing. -/
theorem handsOut_of_performed {s s' : Session (Recorded τ) ρ} {c : Call} {bs : Bytes}
    (h : Performed s c bs s') (hs : s'.connection.state.isEstablished = true) :
    HandsOut s s' bs := by
  cases h with
  | sent _ _ h => exact h.handsOut
  | refused _ => exact HandsOut.refl s
  | received _ hbytes => exact hbytes
  | failed _ _ => cases hs
  | closed h =>
    rw [h.connection] at hs
    cases hs

variable [Transport τ]

/-- Without a session and without data left a call to receive changes nothing. -/
theorem after_recv_idle (fuel room : Nat) {s : Session τ ρ} (hpending : s.connection.pending = [])
    (hs : ¬ s.connection.state.isEstablished = true) :
    after (perform (.recv fuel room)) s = s := by
  have hidle : perform (.recv fuel room) s = .error _ s := recv_idle fuel room hpending hs
  rw [after, hidle]

theorem send_ends (data : Bytes) (s : Session (Recorded τ) ρ) :
    Ends (send data) s
      (fun _ s' => s.connection.state.isEstablished = true ∧
        data.length ≤ Record.maxPlaintext ∧ Attempted s (.applicationData, data) s')
      (fun _ s' => (s.connection.state.isEstablished = true ∧
        data.length ≤ Record.maxPlaintext ∧ Attempted s (.applicationData, data) s') ∨
        (¬ (s.connection.state.isEstablished = true ∧ data.length ≤ Record.maxPlaintext) ∧
          s' = s)) := by
  apply Ends.bind_current
  dsimp only
  by_cases hstate : s.connection.state.isEstablished = true
  · by_cases hlength : data.length ≤ Record.maxPlaintext
    · have hlong : ¬ data.length > Record.maxPlaintext := Nat.not_lt.2 hlength
      simp only [hstate, Bool.not_true, Bool.false_eq_true, if_false, hlong]
      refine Ends.bind_mono (transmitProtected_ends .applicationData data s) ?_ ?_
      · intro _ s' h
        exact .inl ⟨trivial, hlength, h⟩
      · intro _ s' h
        exact ends_pure ⟨trivial, hlength, .inl h⟩
    · have hlong : data.length > Record.maxPlaintext := Nat.not_le.1 hlength
      simp only [hstate, Bool.not_true, Bool.false_eq_true, if_false, hlong, if_true]
      exact ends_fail (.inr ⟨fun h => hlength h.2, rfl⟩)
  · simp only [hstate, Bool.not_false, if_true]
    exact ends_fail (.inr ⟨fun h => by simp at h, rfl⟩)

/-- The farewell goes first and the transport is closed after it, whatever comes of either; then the
connection starts over. -/
theorem close_resets (s : Session (Recorded τ) ρ) :
    Ends close s (fun _ s' => Reset s s') (fun _ s' => Reset s s') := by
  have hfarewell : Ends farewell s
      (fun _ t => if s.connection.state.isEstablished then
        Attempted s (.alert, Alert.closeNotify.toBytes) t else t = s)
      (fun _ t => if s.connection.state.isEstablished then
        Attempted s (.alert, Alert.closeNotify.toBytes) t else t = s) := by
    apply Ends.bind_current
    split
    · refine (transmitProtected_ends .alert _ s).mono ?_ ?_
      · intro _ t h
        exact .inl h
      · intro _ t h
        exact h
    · exact ends_pure rfl
  apply Ends.bind (attempt_ends hfarewell)
  intro told t ht
  apply Ends.bind (attempt_ends (unlink_ends t))
  intro unlinked _ hq
  obtain ⟨inner, rfl⟩ := hq
  -- Nothing of the connection outlives its link, its fields and its state being set back.
  have hreset : Reset s { t with
      transport := { t.transport with inner }
      connection := .fresh } := ⟨t, inner, ht, rfl⟩
  apply Ends.bind_update
  apply Ends.bind_advance_close
  split
  · exact ends_throw hreset
  · exact ends_throw hreset
  · exact ends_pure hreset

/-- Closing comes to the same whether it succeeds or fails on the way. -/
theorem close_ends (s : Session (Recorded τ) ρ) :
    Ends close s (fun _ s' => Closed s s') (fun _ s' => Closed s s') :=
  (close_resets s).mono (fun _ _ h => h.closed) fun _ _ h => h.closed

theorem perform_ends (c : Call) (s : Session (Recorded τ) ρ) :
    Ends (perform c) s (fun bs s' => Performed s c bs s') (fun _ s' => Performed s c [] s') := by
  cases c with
  | send data =>
    refine Ends.bind_mono (send_ends data s) ?_ ?_
    · intro e s' h
      rcases h with ⟨hs, hlength, h⟩ | ⟨h, rfl⟩
      · exact .sent hs hlength h
      · exact .refused h
    · intro n s' h
      obtain ⟨hs, hlength, h⟩ := h
      exact ends_pure (.sent hs hlength h)
  | recv fuel room =>
    refine (recv_ends fuel room s).mono ?_ ?_
    · intro bs s' h
      exact .received h.1 h.2
    · intro e s' h
      rcases h with ⟨h, hbytes⟩ | ⟨hs, t, h, rfl⟩
      · exact .received h hbytes
      · exact .failed hs h
  | close =>
    refine Ends.bind_mono (close_ends s) ?_ ?_
    · intro e s' h
      exact .closed h
    · intro _ s' h
      exact ends_pure (.closed h)

/-- What a call has done, whatever came of it. -/
theorem performed (c : Call) (s : Session (Recorded τ) ρ) :
    Performed s c (handedOut c s) (after (perform c) s) := by
  have h := perform_ends c s
  unfold Ends at h
  unfold handedOut after
  cases hc : perform c s with
  | ok bs s' => simpa only [hc] using h
  | error e s' => simpa only [hc] using h

/-- A session that is established after some calls was so before them. -/
theorem isEstablished_of_afterCalls {calls : List Call} {s : Session (Recorded τ) ρ}
    (h : (afterCalls calls s).connection.state.isEstablished = true) :
    s.connection.state.isEstablished = true := by
  induction calls generalizing s with
  | nil => exact h
  | cons c cs ih => exact isEstablished_of_performed (performed c s) (ih h)

/-- Calls in a row hand out what the records that were taken bring, in their order. -/
theorem handsOut_afterCalls {calls : List Call} {s : Session (Recorded τ) ρ}
    (h : (afterCalls calls s).connection.state.isEstablished = true) :
    HandsOut s (afterCalls calls s) (delivered calls s) := by
  -- Once a session is not established it stays so, hence it is after the first call as well.
  induction calls generalizing s with
  | nil => exact HandsOut.refl s
  | cons c cs ih =>
    have hfirst : (after (perform c) s).connection.state.isEstablished = true :=
      isEstablished_of_afterCalls h
    exact (handsOut_of_performed (performed c s) hfirst).trans (ih h)

end TlsClient.Session
