import TlsClient.Proofs.Access.KeyAgreement
import TlsClient.Proofs.Session.Handshake
import TlsClient.Proofs.Session.Recording
import TlsClient.Proofs.Session.Termination

/-!
A handshake and calls after it with every access checked. Whatever a server sends, in whatever chunks,
none of them goes out of range: with the checks the session is what it is without them. Main statement:
`accesses_in_range`.
-/

namespace TlsClient.Session

open Network Simulation Wire

variable {τ ρ α : Type}

namespace Checked

/-! ### Calls -/

def attempt (a : CheckedAction τ ρ α) : CheckedAction τ ρ (Except Stop α) := fun s =>
  match a s with
  | .ok x s => .ok (.ok x) s
  | .error (.stopped e) s => .ok (.error e) s
  | .error (.outOfRange access) s => .error (.outOfRange access) s

@[simp] theorem attempt_lift (a : Action τ ρ α) : attempt (lift a) = lift (Session.attempt a) := by
  funext s
  dsimp only [attempt, lift, Session.attempt]
  cases a s <;> rfl

def handOut (room : Nat) : CheckedAction τ ρ Bytes := do
  let pending := (← lift current).pending
  let n := min room pending.length
  access (Checked.touch (.slice 0 n room))
  let out ← access (Checked.slice 0 n pending)
  access (Checked.touch (.copy n out.length))
  let (_, rest) ← access (Checked.splitAt n pending)
  lift (update ({ · with pending := rest }))
  return out

/-- Handing out splits the pending data at a place that is never behind its end. -/
theorem handOut_eq (room : Nat) : (handOut room : CheckedAction τ ρ Bytes) = lift (do
    let pending := (← current).pending
    update ({ · with pending := pending.drop room })
    return pending.take room) := by
  rw [handOut, lift_bind]
  refine bind_congr fun c => ?_
  generalize c.pending = pending
  have htake : pending.take (min room pending.length) = pending.take room := by
    rw [← List.take_take, List.take_length]
  have hdrop : pending.drop (min room pending.length) = pending.drop room := by
    rcases Nat.le_total room pending.length with hle | hle
    · rw [Nat.min_eq_left hle]
    · rw [Nat.min_eq_right hle, List.drop_length, List.drop_eq_nil_of_le hle]
  have hroom : (Access.slice 0 (min room pending.length) room).InRange :=
    ⟨Nat.zero_le _, Nat.min_le_left _ _⟩
  have hcopy : (Access.copy (min room pending.length)
      (pending.take (min room pending.length)).length).InRange :=
    (List.length_take_of_le (Nat.min_le_right _ _)).symm
  dsimp only
  rw [Checked.touch_eq hroom, access_ok, pure_bind, Checked.slice_zero (Nat.min_le_right _ _),
    access_ok, pure_bind, Checked.touch_eq hcopy, access_ok, pure_bind,
    Checked.splitAt_eq (Nat.min_le_right _ _), access_ok, pure_bind, htake, hdrop, lift_bind]
  rfl

section

variable [Transport τ]

def receiveData : (fuel : Nat) → CheckedAction τ ρ Unit
  | 0 => lift (throw .unfinished)
  | fuel + 1 => do
    let record ← receive
    match record.contentType with
    | .applicationData =>
      if record.fragment = [] then receiveData fuel
      else lift (update ({ · with pending := record.fragment }))
    | .alert => heed record.fragment
    | .handshake =>
      let header ← check (Parser.Checked.parse HandshakeHeader.Checked.parse record.fragment)
      if header.kind = .helloRequest then receiveData fuel
      else lift (do fail (.unexpectedHandshake header.kind (← current).state))
    | other => lift (fail (.unexpectedContentType other))

@[simp] theorem receiveData_eq (fuel : Nat) :
    (receiveData fuel : CheckedAction τ ρ Unit) = lift (Session.receiveData fuel) := by
  induction fuel with
  | zero => rfl
  | succ fuel ih =>
    rw [receiveData, Session.receiveData, lift_bind, receive_eq]
    refine bind_congr fun record => ?_
    cases record.contentType with
    | applicationData => simp only [ih, lift_ite]
    | alert => exact heed_eq record.fragment
    | handshake =>
      simp only [HandshakeHeader.Checked.parse_eq, Parser.Checked.parse_lift, check_outcome, ih,
        lift_bind, lift_ite]
    | _ => rfl

def recv (fuel room : Nat) : CheckedAction τ ρ Bytes := do
  let c ← lift current
  if c.pending = [] then
    if c.state.isEstablished then
      onStop (fun e s => if isResumable e then s else { s with connection := s.connection.failed })
        (receiveData fuel)
    else lift (fail (.invalidState c.state))
  handOut room

@[simp] theorem recv_eq (fuel room : Nat) :
    (recv fuel room : CheckedAction τ ρ Bytes) = lift (Session.recv fuel room) := by
  rw [recv, Session.recv, lift_bind]
  refine bind_congr fun c => ?_
  simp only [handOut_eq, receiveData_eq, onStop_lift, lift_ite, lift_bind]
  rfl

end

variable [Transport τ] [RandomSource ρ]

def send (data : Bytes) : CheckedAction τ ρ Nat := do
  let state := (← lift current).state
  if !state.isEstablished then lift (fail (.invalidState state))
  else if data.length > Record.maxPlaintext then lift (fail (.tooLong data.length Record.maxPlaintext))
  else
    transmitProtected .applicationData data
    return data.length

@[simp] theorem send_eq (data : Bytes) :
    (send data : CheckedAction τ ρ Nat) = lift (Session.send data) := by
  simp only [send, Session.send, transmitProtected_eq, lift_bind, lift_ite, lift_pure]

def farewell : CheckedAction τ ρ Unit := do
  if (← lift current).state.isEstablished then transmitProtected .alert Alert.closeNotify.toBytes

@[simp] theorem farewell_eq : (farewell : CheckedAction τ ρ Unit) = lift Session.farewell := by
  simp only [farewell, Session.farewell, transmitProtected_eq, lift_bind, lift_ite, lift_pure]

def close : CheckedAction τ ρ Unit := do
  let told ← attempt farewell
  let unlinked ← lift (Session.attempt unlink)
  lift (update .reset)
  lift (advance .close)
  match told, unlinked with
  | .error e, _ => lift (throw e)
  | .ok (), .error e => lift (throw e)
  | .ok (), .ok () => return ()

@[simp] theorem close_eq : (close : CheckedAction τ ρ Unit) = lift Session.close := by
  simp only [close, Session.close, farewell_eq, attempt_lift, lift_bind]
  refine bind_congr fun told => bind_congr fun unlinked => bind_congr fun _ => bind_congr fun _ => ?_
  rcases told with e | ⟨⟩
  · rfl
  · rcases unlinked with e | ⟨⟩ <;> rfl

def perform : Call → CheckedAction τ ρ Bytes
  | .send data => do
    let _ ← send data
    return []
  | .recv fuel room => recv fuel room
  | .close => do
    close
    return []

/-- No call leaves a region, whatever the session is and whatever the transport brings. -/
theorem perform_eq (c : Call) :
    (perform c : CheckedAction τ ρ Bytes) = lift (Session.perform c) := by
  cases c with
  | send data => simp only [perform, Session.perform, send_eq, lift_bind, lift_pure]
  | recv fuel room => exact recv_eq fuel room
  | close => simp only [perform, Session.perform, close_eq, lift_bind, lift_pure]

/-! ### Runs -/

omit [Transport τ] [RandomSource ρ] in
/-- The session after a checked action, whether it gave a result or stopped, unless it has gone out of
range. -/
def after (a : CheckedAction τ ρ α) (s : Session τ ρ) : Checked (Session τ ρ) :=
  match a s with
  | .ok _ s => .ok s
  | .error (.stopped _) s => .ok s
  | .error (.outOfRange access) _ => .error access

omit [Transport τ] [RandomSource ρ] in
/-- A checked action that never goes out of range leaves the session that the plain one leaves. -/
theorem after_lift (a : Action τ ρ α) (s : Session τ ρ) :
    after (lift a) s = .ok (Session.after a s) := by
  unfold after lift Session.after
  cases a s <;> rfl

def afterCalls : List Call → Session τ ρ → Checked (Session τ ρ)
  | [], s => .ok s
  | c :: cs, s => do afterCalls cs (← after (perform c) s)

/-- Calls in a row stay in range because each of them does, from any session. -/
theorem afterCalls_eq (calls : List Call) (s : Session τ ρ) :
    afterCalls calls s = .ok (Session.afterCalls calls s) := by
  induction calls generalizing s with
  | nil => rfl
  | cons c cs ih => rw [afterCalls, perform_eq, after_lift, Checked.ok_bind, ih, Session.afterCalls]

def run (fuel : Nat) (now : Clock) (host : String) (peer : Endpoint) (calls : List Call)
    (s : Session τ ρ) : Checked (Session τ ρ) := do
  afterCalls calls (← after (handshake fuel now host peer) s)

/-- A handshake and the calls after it stay in range and lead to the session that they lead to
unchecked. -/
theorem run_eq (fuel : Nat) (now : Clock) (host : String) (peer : Endpoint) (calls : List Call)
    (s : Session τ ρ) : run fuel now host peer calls s =
      .ok (Session.afterCalls calls (Session.after (Session.handshake fuel now host peer) s)) := by
  rw [run, handshake_eq, after_lift, Checked.ok_bind, afterCalls_eq]

end Checked

/-! ### Main statement -/

variable [Transport τ] [RandomSource ρ]

/-- A handshake from the start leads to the established state, or fails and leads to the error state. -/
theorem handshake_decides (fuel : Nat) (now : Clock) (host : String) (peer : Endpoint) (t : τ)
    (config : Config) (random : ρ) :
    Ends (handshake fuel now host peer) (start t config random)
      (fun _ s => s.connection.state = .established) fun _ s => s.connection.state = .error := by
  -- How a handshake ends is known over a recorded transport, and the record makes no difference.
  refine (Mirrors.handshake fuel now host peer).ends (s := start (.start t) config random) ?_
  refine (handshake_ends fuel now host peer _ fun _ => rfl).mono ?_ ?_
  · rintro _ s ⟨c, hs⟩
    exact hs.state
  · rintro e s (⟨hinit, -⟩ | ⟨hs, -⟩)
    · exact absurd rfl hinit
    · exact hs

/-- A server cannot lead a client out of bounds. Whatever bytes its transport brings, in whatever
chunks, and whatever the configuration, the random numbers and the name of the host are: a handshake and
any calls after it make no access out of range, and the handshake ends in the established state or with
an error in the error state. Patience does not run out on it if the transport supplies a limited number
of bytes and the random source goes on yielding bytes that are not zero. -/
theorem accesses_in_range (t : τ) (config : Config) (random : ρ) (now : Clock) (host : String)
    (peer : Endpoint) :
    (∀ fuel calls, Checked.run fuel now host peer calls (start t config random) =
      .ok (afterCalls calls (after (handshake fuel now host peer) (start t config random)))) ∧
    (∀ fuel, Ends (handshake fuel now host peer) (start t config random)
      (fun _ s => s.connection.state = .established) fun _ s => s.connection.state = .error) ∧
    ∀ n, Supplies n (Recorded.start t) → RandomSource.Lively random →
      ∃ k, Concludes k (fun fuel => handshake fuel now host peer) (start t config random)
        (fun _ s => s.connection.state = .established) fun _ s => s.connection.state = .error := by
  refine ⟨fun fuel calls => Checked.run_eq fuel now host peer calls _, fun fuel =>
    handshake_decides fuel now host peer t config random, fun n hsupply hlively => ?_⟩
  obtain ⟨k, hfinishes⟩ :=
    handshake_finishes (s := start (.start t) config random) now host peer hsupply hlively
  have hmirrors (fuel : Nat) := Mirrors.handshake (τ := τ) (ρ := ρ) fuel now host peer
  have hunfinished : Ends (handshake k now host peer) (start t config random) (fun _ _ => True)
      fun e _ => e ≠ .unfinished :=
    (hmirrors k).ends (hfinishes.ends.mono (fun _ _ _ => trivial) fun _ _ h => h.1)
  refine ⟨k, fun fuel hfuel => (hmirrors fuel).eq (hmirrors k) (hfinishes.same fuel hfuel), ?_⟩
  exact (hunfinished.and (handshake_decides k now host peer t config random)).mono
    (fun _ _ h => h.2) fun _ _ h => h

/-- The recorded server, with calls in several pieces and a farewell. -/
theorem sample_in_range : Supplies 232 (Recorded.start Tape.sample) ∧
    Checked.run 100 ⟨0, 0⟩ "" .unspecified [.recv 5 1, .close, .recv 5 9]
        (start Tape.sample Config.standard (ScriptedSource.ofBytes [])) =
      .ok (afterCalls [.recv 5 1, .close, .recv 5 9] (after (handshake 100 ⟨0, 0⟩ "" .unspecified)
        (start Tape.sample Config.standard (ScriptedSource.ofBytes [])))) ∧
    ∃ k, Concludes k (fun fuel => handshake fuel ⟨0, 0⟩ "" .unspecified)
      (start Tape.sample Config.standard (ScriptedSource.ofBytes []))
      (fun _ s => s.connection.state = .established) fun _ s => s.connection.state = .error := by
  have hsupply : Supplies 232 (Recorded.start Tape.sample) := tape_supplies _
  have hlively : RandomSource.Lively (ScriptedSource.ofBytes []) := ScriptedSource.lively (by decide)
  obtain ⟨hruns, -, hends⟩ :=
    accesses_in_range Tape.sample Config.standard (ScriptedSource.ofBytes []) ⟨0, 0⟩ "" .unspecified
  exact ⟨hsupply, hruns 100 _, hends 232 hsupply hlively⟩

end TlsClient.Session
