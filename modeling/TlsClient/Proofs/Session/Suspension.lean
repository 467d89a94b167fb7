import TlsClient.Proofs.Session.Coupling
import TlsClient.Proofs.Session.News

/-!
What becomes of an established session that fails to receive. An error about what has arrived is the
end of it: nothing secret is left and no call gets past the check of the state. If it was about the
time, the transport or the end of the connection, the session goes on where it was, and later calls
are answered as if that call had waited longer. Main statement: `recv_failure_splits`.
-/

namespace TlsClient

def News.behind (pending : Bytes) (rest : News) : News :=
  if pending = [] then rest else .cons (.ok (some pending)) rest

/-- How calls with room for so many bytes each are answered: with the data of the news, in pieces that
fit, and then with the error that they end with, after which the session is in its error state. -/
def answersTo : News → (rooms : List Nat) → List (Except Error Bytes)
  | _, [] => []
  | ⟨[], none⟩, _ :: _ => []
  | ⟨[], some e⟩, _ :: rooms =>
    .error e :: answersTo ⟨[], some (.invalidState .error)⟩ rooms
  | ⟨piece :: data, fault⟩, room :: rooms =>
    .ok (piece.take room) :: answersTo (.behind (piece.drop room) ⟨data, fault⟩) rooms

/-- In the error state every call is refused in the same way. -/
theorem answersTo_refused (rooms : List Nat) :
    answersTo ⟨[], some (.invalidState .error)⟩ rooms =
      rooms.map fun _ => .error (.invalidState .error) := by
  induction rooms with
  | nil => rfl
  | cons room rooms ih => exact congrArg (List.cons _) ih

namespace Session

open Network

/-! ### Kinds of errors -/

/-- A session can go on after the errors that tell nothing about what has arrived. -/
theorem isResumable_eq_true_iff {e : Error} :
    isResumable (.failed e) = true ↔
      e.kind = .timeout ∨ e.kind = .transport ∨ e = .connectionClosed := by
  cases e with
  | arithmetic fault => cases fault <;> simp [isResumable, Error.kind]
  | timeout => decide
  | connectionClosed => decide
  | transport fault => exact ⟨fun _ => .inr (.inl rfl), fun _ => rfl⟩
  | _ => simp [isResumable, Error.kind]

/-- The errors that end a session are those of three kinds, the end of the connection apart. -/
theorem isResumable_eq_false_iff {e : Error} :
    isResumable (.failed e) = false ↔
      (e.kind = .protocol ∨ e.kind = .crypto ∨ e.kind = .capacity) ∧ e ≠ .connectionClosed := by
  rw [← Bool.not_eq_true, isResumable_eq_true_iff]
  generalize hkind : e.kind = kind
  cases kind <;> simp

variable {τ ρ : Type} [Transport τ]

/-! ### Answers -/

/-- What calls come to that receive with so much fuel and room each: the answers, with the room of the
calls that they were given to. A call that stops although the session can go on has no answer. -/
def receipts : List (Nat × Nat) → Session τ ρ → List (Nat × Except Error Bytes)
  | [], _ => []
  | (fuel, room) :: calls, s =>
    match recv fuel room s with
    | .ok bs t => (room, .ok bs) :: receipts calls t
    | .error .unfinished t => receipts calls t
    | .error (.failed e) t =>
      if isResumable (.failed e) then receipts calls t else (room, .error e) :: receipts calls t

def receiving (calls : List (Nat × Nat)) : List Call :=
  calls.map fun call => .recv call.1 call.2

variable {p : Protection} {s t u : Session (Recorded τ) ρ}

def arrivals [RandomSource ρ] (calls : List (Nat × Nat)) (s : Session (Recorded τ) ρ) : Bytes :=
  (afterCalls (receiving calls) s).transport.received.drop s.transport.received.length

omit [Transport τ] in
/-- What the client was not told yet, if `more` arrives. -/
def unheard (p : Protection) (s : Session (Recorded τ) ρ) (more : Bytes) : News :=
  .behind s.connection.pending (toCome p s more)

omit [Transport τ] in
theorem unheard_of_nil (h : s.connection.pending = []) (more : Bytes) :
    unheard p s more = toCome p s more := by
  rw [unheard, News.behind, if_pos h]

/-- A call hands out what is pending, or the first of the news if nothing is. -/
theorem recv_tells (fuel room : Nat) (h : Listening p s) :
    Ends (recv fuel room) s
      (fun bs t => Listening p t ∧ ∃ arrived,
        t.transport.received = s.transport.received ++ arrived ∧
        ∀ more rooms, answersTo (unheard p s (arrived ++ more)) (room :: rooms) =
          .ok bs :: answersTo (unheard p t more) rooms)
      (fun stop t => s.connection.pending = [] ∧ ∃ u, Interrupted p s stop u ∧ Moves s u ∧
        t = if isResumable stop then u else { u with connection := u.connection.failed }) := by
  -- Whatever is pending by then is cut in two.
  have hcut (u : Session (Recorded τ) ρ) (arrived : Bytes) (hu : Listening p u)
      (hreceived : u.transport.received = s.transport.received ++ arrived)
      (htold : ∀ more, unheard p s (arrived ++ more) =
        .cons (.ok (some u.connection.pending)) (toCome p u more)) :
      Listening p { u with connection :=
        { u.connection with pending := u.connection.pending.drop room } } ∧ ∃ arrived,
        u.transport.received = s.transport.received ++ arrived ∧
        ∀ more rooms, answersTo (unheard p s (arrived ++ more)) (room :: rooms) =
          .ok (u.connection.pending.take room) :: answersTo (unheard p { u with connection :=
            { u.connection with pending := u.connection.pending.drop room } } more) rooms := by
    refine ⟨⟨hu.state, hu.link, hu.readProtection⟩, arrived, hreceived, fun more rooms => ?_⟩
    rw [htold]
    rfl
  apply Ends.bind_current
  dsimp only
  by_cases hpending : s.connection.pending = []
  · rw [if_pos hpending, if_pos (by rw [h.state]; rfl)]
    refine Ends.bind (Q := fun _ t => ∃ arrived data, Told p s t arrived data) (orSuspend_ends ?_) ?_
    · apply (receiveData_tells fuel h).mono (fun _ _ h => h)
      intro stop u hu
      exact ⟨hpending, u, hu.1, hu.2, rfl⟩
    · rintro _ t ⟨arrived, data, htold⟩
      refine Ends.bind_current (Ends.bind_update (ends_pure ?_))
      apply hcut t arrived (htold.listening h) htold.received
      intro more
      rw [unheard_of_nil hpending, htold.pending]
      exact htold.toCome more
  · rw [if_neg hpending]
    refine Ends.bind_current (Ends.bind_update (ends_pure ?_))
    apply hcut s [] h (List.append_nil _).symm
    intro more
    rw [unheard, News.behind, if_neg hpending]
    rfl

/-! ### Sessions that have nothing to offer -/

section
variable [RandomSource ρ]

/-- A session that is not established and has nothing pending does nothing but close. -/
theorem perform_idle {s : Session τ ρ} {c : Call} (hc : c ≠ .close)
    (hpending : s.connection.pending = []) (hs : ¬ s.connection.state.isEstablished = true) :
    perform c s = .error (.failed (.invalidState s.connection.state)) s := by
  cases c with
  | send data => exact bind_of_error (send_idle data hs)
  | recv fuel room => exact recv_idle fuel room hpending hs
  | close => exact absurd rfl hc

/-- Calls change nothing where there is no session, until it is closed. -/
theorem afterCalls_idle {s : Session τ ρ} {calls : List Call} (hcalls : .close ∉ calls)
    (hpending : s.connection.pending = []) (hs : ¬ s.connection.state.isEstablished = true) :
    afterCalls calls s = s := by
  induction calls with
  | nil => rfl
  | cons c calls ih =>
    rw [List.mem_cons, not_or] at hcalls
    have hsame : after (perform c) s = s := by
      rw [after, perform_idle (Ne.symm hcalls.1) hpending hs]
    rw [afterCalls, hsame]
    exact ih hcalls.2

/-- Nor does it hand anything out after it was closed, until there is another handshake. -/
theorem delivered_idle {calls : List Call} (hpending : s.connection.pending = [])
    (hs : ¬ s.connection.state.isEstablished = true) : delivered calls s = [] := by
  induction calls generalizing s with
  | nil => rfl
  | cons c calls ih =>
    by_cases hc : c = .close
    · subst hc
      have hclosed := performed .close s
      rw [delivered]
      generalize handedOut .close s = bs, after (perform .close) s = t at hclosed
      cases hclosed with
      | closed h =>
        rw [List.nil_append]
        apply ih
        · rw [h.connection]
          rfl
        · rw [h.connection]
          exact Bool.false_ne_true
    · have hidle := perform_idle hc hpending hs
      rw [delivered, handedOut, after, hidle]
      exact ih hpending hs

/-- Nor is there another handshake before it is closed. -/
theorem handshake_idle {s : Session τ ρ} (fuel : Nat) (now : Clock) (host : String) (peer : Endpoint)
    (hs : s.connection.state ≠ .init) :
    handshake fuel now host peer s = .error (.failed (.invalidState s.connection.state)) s := by
  apply Ends.eq_error
  apply Ends.bind_current
  dsimp only
  rw [if_neg hs]
  exact ends_fail ⟨rfl, rfl⟩

/-- What is left of an established session that has failed for good: it is in its error state and has
no secret and no data, everything but closing it stops at the check of the state, whatever the
transport, and closing it leaves nothing of the connection. -/
structure Abandoned (t : Session (Recorded τ) ρ) : Prop where
  state : t.connection.state = .error
  cleared : t.connection.Cleared
  send : ∀ (τ' ρ' : Type) [Transport τ'] [RandomSource ρ'] (u : Session τ' ρ'),
    u.connection = t.connection → ∀ data,
      send data u = .error (.failed (.invalidState .error)) u
  recv : ∀ (τ' ρ' : Type) [Transport τ'] [RandomSource ρ'] (u : Session τ' ρ'),
    u.connection = t.connection → ∀ fuel room,
      recv fuel room u = .error (.failed (.invalidState .error)) u
  handshake : ∀ (τ' ρ' : Type) [Transport τ'] [RandomSource ρ'] (u : Session τ' ρ'),
    u.connection = t.connection → ∀ fuel now host peer,
      handshake fuel now host peer u = .error (.failed (.invalidState .error)) u
  unchanged : ∀ calls, .close ∉ calls → afterCalls calls t = t
  silent : ∀ calls, delivered calls t = []
  renewed : (after close t).connection = .fresh

/-- What is left after an error is abandoned, whatever there was before. -/
theorem abandoned_failed (u : Session (Recorded τ) ρ) :
    Abandoned { u with connection := u.connection.failed } where
  state := rfl
  cleared := ⟨rfl, rfl, rfl, rfl, rfl⟩
  send _ _ _ _ v hv data := by
    have hstate : v.connection.state = .error := by rw [hv]; rfl
    rw [send_idle data (by rw [hstate]; exact Bool.false_ne_true), hstate]
  recv _ _ _ _ v hv fuel room := by
    have hstate : v.connection.state = .error := by rw [hv]; rfl
    have hpending : v.connection.pending = [] := by rw [hv]; rfl
    rw [recv_idle fuel room hpending (by rw [hstate]; exact Bool.false_ne_true), hstate]
  handshake _ _ _ _ v hv fuel now host peer := by
    have hstate : v.connection.state = .error := by rw [hv]; rfl
    rw [handshake_idle fuel now host peer (by rw [hstate]; exact State.noConfusion), hstate]
  unchanged _ hcalls := afterCalls_idle hcalls rfl Bool.false_ne_true
  silent _ := delivered_idle rfl Bool.false_ne_true
  renewed := Ends.after (P := fun t => t.connection = .fresh)
    ((close_ends _).mono (fun _ _ h => h.connection) fun _ _ h => h.connection)

/-! ### Series of calls -/

omit [RandomSource ρ] in
theorem receipts_idle {s : Session τ ρ} (calls : List (Nat × Nat))
    (hpending : s.connection.pending = []) (hs : s.connection.state = .error) :
    receipts calls s = calls.map fun call => (call.2, .error (.invalidState .error)) := by
  have hnot : ¬ s.connection.state.isEstablished = true := by
    rw [hs]
    exact Bool.false_ne_true
  induction calls with
  | nil => rfl
  | cons call calls ih =>
    obtain ⟨fuel, room⟩ := call
    rw [receipts, recv_idle fuel room hpending hnot, hs]
    exact congrArg (List.cons _) ih

theorem close_not_mem_receiving (calls : List (Nat × Nat)) : .close ∉ receiving calls := by
  intro h
  obtain ⟨call, -, hcall⟩ := List.mem_map.1 h
  cases hcall

/-- The answers to a series of calls are those that the news have for them, whatever else may arrive
later. -/
theorem receipts_tell (calls : List (Nat × Nat)) (h : Listening p s) :
    ∃ arrived,
      (afterCalls (receiving calls) s).transport.received = s.transport.received ++ arrived ∧
      ∀ more, (receipts calls s).map Prod.snd =
        answersTo (unheard p s (arrived ++ more)) ((receipts calls s).map Prod.fst) := by
  -- Each call tells some news, none, or the last, and the next call finds the rest of them.
  induction calls generalizing s with
  | nil => exact ⟨[], (List.append_nil _).symm, fun more => by rw [receipts]; rfl⟩
  | cons call calls ih =>
    obtain ⟨fuel, room⟩ := call
    have htells := recv_tells fuel room h
    have hafter : afterCalls (receiving ((fuel, room) :: calls)) s =
        afterCalls (receiving calls) (after (recv fuel room) s) := rfl
    rw [hafter, receipts]
    cases hrecv : recv fuel room s with
    | ok bs t =>
      obtain ⟨hlistening, arrived, hreceived, htold⟩ := htells.of_ok hrecv
      obtain ⟨arrived', hreceived', hanswers⟩ := ih hlistening
      rw [after, hrecv]
      refine ⟨arrived ++ arrived', ?_, fun more => ?_⟩
      · rw [hreceived', hreceived, List.append_assoc]
      · dsimp only
        rw [List.map_cons, List.map_cons, List.append_assoc, htold, ← hanswers]
    | error stop t =>
      obtain ⟨hpending, u, hinterrupted, hmoves, rfl⟩ := htells.of_error hrecv
      rw [after, hrecv]
      cases hinterrupted with
      | @suspended _ _ arrived _ hstop hpasses _ =>
        -- The call is given up: it has no answer, and what is to come is still to come.
        obtain ⟨arrived', hreceived', hanswers⟩ := ih (h.of_moves hmoves)
        rw [if_pos hstop]
        refine ⟨arrived ++ arrived', ?_, fun more => ?_⟩
        · rw [← List.append_assoc, ← hpasses.received]
          exact hreceived'
        · have hsame : unheard p s (arrived ++ arrived' ++ more) = unheard p u (arrived' ++ more) := by
            rw [unheard_of_nil hpending, unheard_of_nil (hmoves.pending.trans hpending),
              List.append_assoc, hpasses.toCome]
          rw [hsame]
          cases stop with
          | unfinished => exact hanswers more
          | failed e =>
            dsimp only
            rw [if_pos hstop]
            exact hanswers more
      | @failed e _ arrived he hreceived hnews =>
        -- The call has the last answer of the news, and all that follow are refused.
        have hnot : ¬ isResumable (.failed e) = true := by
          rw [he]
          exact Bool.false_ne_true
        rw [if_neg hnot]
        refine ⟨arrived, ?_, fun more => ?_⟩
        · dsimp only
          rw [(abandoned_failed u).unchanged _ (close_not_mem_receiving calls)]
          exact hreceived
        · dsimp only
          rw [if_neg hnot, receipts_idle calls rfl rfl, unheard_of_nil hpending, hnews]
          simp only [List.map_cons, answersTo, answersTo_refused, List.map_map, Function.comp_def]

/-- Calls to receive are answered with the news, however the bytes arrive in between. -/
theorem receipts_eq_answersTo (calls : List (Nat × Nat)) (h : Listening p s) (more : Bytes) :
    (receipts calls s).map Prod.snd =
      answersTo (unheard p s (arrivals calls s ++ more)) ((receipts calls s).map Prod.fst) := by
  obtain ⟨arrived, hreceived, hanswers⟩ := receipts_tell calls h
  have harrivals : arrivals calls s = arrived := by
    rw [arrivals, hreceived, List.drop_left]
  rw [harrivals]
  exact hanswers more

/-- A session `t` that can go on after `s` has failed to receive with `e`: meanwhile `arrived` has come
in, and the records of `xs` were opened and brought nothing. -/
structure Suspended (p : Protection) (s t : Session (Recorded τ) ρ) (e : Error) (arrived : Bytes)
    (xs : List (Record × Bytes)) : Prop where
  unchanged : t = { s with
    transport := t.transport
    lastAlert := t.lastAlert
    connection := { s.connection with
      reader := t.connection.reader
      serverSequence := t.connection.serverSequence } }
  received : t.transport.received = s.transport.received ++ arrived
  buffered : s.connection.reader.buffer ++ arrived =
    wire (xs.map Prod.fst) ++ t.connection.reader.buffer
  opened : p.Opens s.config.verifyMac s.connection.serverSequence.toNat xs
  counted : t.connection.serverSequence.toNat = s.connection.serverSequence.toNat + xs.length
  silent : ∀ x ∈ xs, hearing x.1.contentType x.2 = .ok none
  /-- All complete records were opened, unless the last one opened was the farewell. -/
  last : t.connection.reader.next? = .ok none ∨ e = .connectionClosed ∧
    ∃ before r content, xs = before ++ [(r, content)] ∧ r.contentType = .alert
  /-- Over whatever transport the session goes on, its calls are answered with the news of what `s` had
  not opened. -/
  answers : ∀ (τ' ρ' : Type) [Transport τ'] [RandomSource ρ'] (t' : Session (Recorded τ') ρ'),
    t'.connection = t.connection → t'.config = t.config → ∀ calls more,
      (receipts calls t').map Prod.snd =
        answersTo (toCome p s (arrived ++ (arrivals calls t' ++ more)))
          ((receipts calls t').map Prod.fst)
  /-- They are answered as if `s` had not failed, but waited for the same bytes. -/
  waits : ∀ (τ₁ ρ₁ τ₂ ρ₂ : Type) [Transport τ₁] [RandomSource ρ₁] [Transport τ₂] [RandomSource ρ₂]
    (t' : Session (Recorded τ₁) ρ₁) (s' : Session (Recorded τ₂) ρ₂),
    t'.connection = t.connection → t'.config = t.config →
    s'.connection = s.connection → s'.config = s.config → ∀ calls calls' more more',
      arrived ++ (arrivals calls t' ++ more) = arrivals calls' s' ++ more' →
      (receipts calls t').map Prod.fst = (receipts calls' s').map Prod.fst →
      receipts calls t' = receipts calls' s'

omit [Transport τ] [RandomSource ρ] in
/-- What is still to come does not depend on the transport. -/
theorem toCome_congr {τ' ρ' : Type} {s' : Session (Recorded τ') ρ'}
    (hconnection : s'.connection = s.connection) (hconfig : s'.config = s.config) (more : Bytes) :
    toCome p s' more = toCome p s more := by
  rw [toCome, toCome, hconnection, hconfig]

omit [Transport τ] [RandomSource ρ] in
/-- Of a session on the same connection, over whatever transport. -/
theorem receipts_of_same {τ' ρ' : Type} [Transport τ'] [RandomSource ρ']
    {s' : Session (Recorded τ') ρ'} (h : Listening p s) (hpending : s.connection.pending = [])
    (hconnection : s'.connection = s.connection) (hconfig : s'.config = s.config)
    (calls : List (Nat × Nat)) (more : Bytes) :
    (receipts calls s').map Prod.snd =
      answersTo (toCome p s (arrivals calls s' ++ more)) ((receipts calls s').map Prod.fst) := by
  have hlistening : Listening p s' := by
    refine ⟨?_, ?_, ?_⟩
    · rw [hconnection, h.state]
    · rw [hconnection, h.link]
    · rw [hconnection, h.readProtection]
  rw [receipts_eq_answersTo calls hlistening more,
    unheard_of_nil (by rw [hconnection, hpending]), toCome_congr hconnection hconfig]

omit [Transport τ] [RandomSource ρ] in
/-- A session that has passed some records and found no more can go on. -/
theorem suspended_of_passes {arrived : Bytes} {xs : List (Record × Bytes)} {e : Error}
    (hs : Listening p s) (hpending : s.connection.pending = []) (h : Passes p s t arrived xs)
    (hlast : t.connection.reader.next? = .ok none ∨ e = .connectionClosed ∧
      ∃ before r content, xs = before ++ [(r, content)] ∧ r.contentType = .alert) :
    Suspended p s t e arrived xs := by
  have hpending' := h.moves.pending.trans hpending
  have hopened := h.intake.opened
  rw [hs.readProtection] at hopened
  have hanswers (τ' ρ' : Type) [Transport τ'] [RandomSource ρ'] (t' : Session (Recorded τ') ρ')
      (hconnection : t'.connection = t.connection) (hconfig : t'.config = t.config)
      (calls : List (Nat × Nat)) (more : Bytes) :
      (receipts calls t').map Prod.snd =
        answersTo (toCome p s (arrived ++ (arrivals calls t' ++ more)))
          ((receipts calls t').map Prod.fst) := by
    rw [h.toCome]
    exact receipts_of_same (hs.of_moves h.moves) hpending' hconnection hconfig calls more
  refine ⟨?_, h.received, h.buffered, hopened.1, hopened.2, h.silent, hlast, hanswers, ?_⟩
  · obtain ⟨_, _, _, _, _, ht⟩ := h.moves
    rw [ht]
    rfl
  · -- Both series are answered with the news of the same bytes, so the answers are the same.
    intro τ₁ ρ₁ τ₂ ρ₂ _ _ _ _ t' s' ht hconfig hs' hconfig' calls calls' more more' hbytes hrooms
    have hfirst := hanswers τ₁ ρ₁ t' ht hconfig calls more
    have hsecond := receipts_of_same hs hpending hs' hconfig' calls' more'
    rw [hbytes, hrooms, ← hsecond] at hfirst
    exact (List.zip_of_prod hrooms hfirst).trans (List.zip_of_prod rfl rfl).symm

/-- An established session that a client can hold has keys, so it listens. -/
theorem Reachable.listening (hs : Reachable s) (hstate : s.connection.state = .established) :
    ∃ p, Listening p s := by
  have hequipped := hs.couples.equipped (by rw [hstate]; rfl)
  obtain ⟨p, hp⟩ := Option.isSome_iff_exists.1 hequipped.readProtection
  exact ⟨p, hstate, hequipped.link, hp⟩

/-- An established session that fails to receive is either given up, without a secret left, or goes on
where it was: the records that were opened have brought nothing, all else that has arrived is in the
reader, and later calls are answered as if this one had waited for more. -/
theorem recv_failure_splits {fuel room : Nat} {e : Error} (hs : Reachable s)
    (hstate : s.connection.state = .established) (h : recv fuel room s = .error (.failed e) t) :
    ((e.kind = .protocol ∨ e.kind = .crypto ∨ e.kind = .capacity) ∧ e ≠ .connectionClosed →
      Abandoned t) ∧
    (e.kind = .timeout ∨ e.kind = .transport ∨ e = .connectionClosed →
      ∃ p arrived xs, s.connection.readProtection = some p ∧ Suspended p s t e arrived xs) := by
  obtain ⟨p, hlistening⟩ := hs.listening hstate
  obtain ⟨hpending, u, hinterrupted, hmoves, rfl⟩ := (recv_tells fuel room hlistening).of_error h
  constructor
  · intro hkind
    have hfinal : isResumable (.failed e) = false := isResumable_eq_false_iff.2 hkind
    rw [hfinal, if_neg Bool.false_ne_true]
    exact abandoned_failed u
  · intro hkind
    have hresumable : isResumable (.failed e) = true := isResumable_eq_true_iff.2 hkind
    rw [if_pos hresumable]
    cases hinterrupted with
    | @suspended _ _ arrived xs _ hpasses hlast =>
      refine ⟨p, arrived, xs, hlistening.readProtection,
        suspended_of_passes hlistening hpending hpasses ?_⟩
      rcases hlast with hlast | hlast | ⟨hclosed, hlast⟩
      · cases hlast
      · exact .inl hlast
      · exact .inr ⟨Stop.failed.inj hclosed, hlast⟩
    | failed _ he _ _ =>
      rw [hresumable] at he
      cases he

end

end Session

namespace Simulation.Tape

open Network Session

/-- The recorded server with its data altered on the way, in the last byte of the tag. -/
def altered : Tape where
  chunks := sample.chunks.take 4 ++ [
    [23, 3, 3, 0, 26, 0, 0, 0, 0, 0, 0, 0, 1, 174, 47, 89, 213, 101, 140, 232, 246, 229, 33, 6, 170,
      6, 142, 94, 1, 166, 132]]

def alteredClient : Session (Recorded Tape) ScriptedSource :=
  .start (.start altered) client.config (.ofBytes [])

/-- Data with an altered tag is refused, in a run from the start. -/
theorem altered_run : ∃ s t : Session (Recorded Tape) ScriptedSource,
    Reachable s ∧ s.connection.state = .established ∧
    Session.recv 5 9 s = .error (.failed .badRecordMac) t := by
  have hlisten : reaches (listen 100 ⟨0, 0⟩ "" .unspecified) alteredClient IsAnswered := by
    decide +kernel
  have hfinish : reaches finish (keyed (after (listen 100 ⟨0, 0⟩ "" .unspecified) alteredClient))
      fun s => decide (s.connection.state = .established ∧
        stop? (Session.recv 5 9) s = some (.failed .badRecordMac)) := by
    decide +kernel
  obtain ⟨s, hhandshake, htest⟩ := exists_handshake rfl hlisten hfinish
  obtain ⟨hstate, hstop⟩ := of_decide_eq_true htest
  obtain ⟨t, hrecv⟩ := stop?_eq_some hstop
  have hreachable : Reachable (after handshake alteredClient) := .handshake (.start ..) 100 ⟨0, 0⟩ ""
    .unspecified
  rw [after, hhandshake] at hreachable
  exact ⟨s, t, hreachable, hstate, hrecv⟩

end Simulation.Tape

namespace Session

open Network Simulation

/-- After it got the data of the recorded server, its client waits in vain and can go on. If the data
was altered on the way, the client is given up when it gets there. -/
theorem sample_suspended :
    (∃ s t : Session (Recorded Tape) ScriptedSource, ∃ p arrived xs,
      Reachable s ∧ s.connection.state = .established ∧
      recv 5 9 s = .error (.failed .timeout) t ∧ s.connection.readProtection = some p ∧
      Suspended p s t .timeout arrived xs) ∧
    ∃ s t : Session (Recorded Tape) ScriptedSource,
      Reachable s ∧ s.connection.state = .established ∧
      recv 5 9 s = .error (.failed .badRecordMac) t ∧ Abandoned t := by
  obtain ⟨t, u, ht, -, -, hestablished, -, hrecv⟩ := Tape.sample_run
  have hafter : after Tape.handshake Tape.client = t := by
    rw [after, ht]
  have hreachable : Reachable (after Tape.handshake Tape.client) :=
    .handshake (.start ..) 100 ⟨0, 0⟩ "" .unspecified
  rw [hafter] at hreachable
  have hcalls : Reachable (afterCalls Tape.calls t) := ((hreachable.call _).call _).call _
  have hstate := State.eq_established hestablished
  obtain ⟨p, arrived, xs, hp, hsuspended⟩ := (recv_failure_splits hcalls hstate hrecv).2 (.inl rfl)
  obtain ⟨s, v, hs, hstate', hfailed⟩ := Tape.altered_run
  have habandoned : Abandoned v := (recv_failure_splits hs hstate' hfailed).1 (by decide)
  exact ⟨⟨_, u, p, arrived, xs, hcalls, hstate, hrecv, hp, hsuspended⟩, s, v, hs, hstate', hfailed,
    habandoned⟩

end Session
end TlsClient
