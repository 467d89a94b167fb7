import TlsClient.Session.Calls

/-!
How an action ends. `Ends a s Q E` says of the action `a`, run on the session `s`, that it gives a
result and a session with `Q` or stops on a session with `E`; `Ends.bind` takes a sequence apart.
-/

namespace TlsClient

/-- An event of the handshake is accepted in one state only and leads to one other. -/
theorem State.eq_of_next? {e : Event} {s s' t t' : State} (hfail : e ≠ .fail)
    (hclose : e ≠ .close) (h : s.next? e = some t) (h' : s'.next? e = some t') :
    s = s' ∧ t = t' := by
  cases e with
  | fail => exact absurd rfl hfail
  | close => exact absurd rfl hclose
  | _ =>
    cases s <;> cases h
    cases s' <;> cases h'
    exact ⟨rfl, rfl⟩

theorem State.eq_established {state : State} (h : state.isEstablished = true) :
    state = .established := by
  cases state with
  | established => rfl
  | _ => cases h

namespace Session

variable {τ ρ α β : Type}

/-- Run on `s`, the action ends with `Q` of its result or stops with `E` of what stopped it. -/
def Ends (a : Action τ ρ α) (s : Session τ ρ) (Q : α → Session τ ρ → Prop)
    (E : Stop → Session τ ρ → Prop) : Prop :=
  match a s with
  | .ok x s' => Q x s'
  | .error e s' => E e s'

def stop? (a : Action τ ρ α) (s : Session τ ρ) : Option Stop :=
  match a s with
  | .ok _ _ => none
  | .error e _ => some e

theorem stop?_eq_some {a : Action τ ρ α} {s : Session τ ρ} {e : Stop} (h : stop? a s = some e) :
    ∃ t, a s = .error e t := by
  unfold stop? at h
  split at h
  · cases h
  · rename_i e' t ha
    cases h
    exact ⟨t, ha⟩

def reaches (a : Action τ ρ α) (s : Session τ ρ) (test : Session τ ρ → Bool) : Bool :=
  match a s with
  | .ok _ t => test t
  | .error _ _ => false

/-- A run that is looked at with a test need not be written out. -/
theorem eq_ok_of_reaches {a : Action τ ρ Unit} {s : Session τ ρ} {test : Session τ ρ → Bool}
    (h : reaches a s test = true) : a s = .ok () (after a s) ∧ test (after a s) = true := by
  unfold reaches at h
  split at h
  · rename_i t ha
    rw [after, ha]
    exact ⟨rfl, h⟩
  · cases h

namespace Ends

variable {a : Action τ ρ α} {f : α → Action τ ρ β} {s : Session τ ρ}
  {Q Q' : α → Session τ ρ → Prop} {R : β → Session τ ρ → Prop} {E E' : Stop → Session τ ρ → Prop}

theorem of_ok (h : Ends a s Q E) {x : α} {s' : Session τ ρ} (hr : a s = .ok x s') : Q x s' := by
  simpa only [Ends, hr] using h

theorem of_error (h : Ends a s Q E) {e : Stop} {s' : Session τ ρ} (hr : a s = .error e s') :
    E e s' := by
  simpa only [Ends, hr] using h

/-- Less may be said of the results and of the failures. -/
theorem mono (h : Ends a s Q E) (hq : ∀ x s', Q x s' → Q' x s') (he : ∀ e s', E e s' → E' e s') :
    Ends a s Q' E' := by
  unfold Ends at h ⊢
  split at h
  · exact hq _ _ h
  · exact he _ _ h

theorem and (h : Ends a s Q E) (h' : Ends a s Q' E') :
    Ends a s (fun x s' => Q x s' ∧ Q' x s') (fun e s' => E e s' ∧ E' e s') := by
  unfold Ends at h h' ⊢
  split at h <;> exact ⟨h, by simp_all⟩

/-- A result may be kept together with the run that has led to it. -/
theorem and_eq_ok (h : Ends a s Q E) : Ends a s (fun x s' => Q x s' ∧ a s = .ok x s') E := by
  unfold Ends at h ⊢
  cases ha : a s with
  | ok x s' =>
    rw [ha] at h
    exact ⟨h, rfl⟩
  | error e s' =>
    rw [ha] at h
    exact h

/-- An action that can only fail in one way does fail in this way. -/
theorem eq_error {e : Stop} {t : Session τ ρ}
    (h : Ends a s (fun _ _ => False) fun e' t' => e' = e ∧ t' = t) : a s = .error e t := by
  unfold Ends at h
  cases ha : a s with
  | ok x t' =>
    rw [ha] at h
    exact h.elim
  | error e' t' =>
    rw [ha] at h
    obtain ⟨rfl, rfl⟩ := h
    rfl

/-- How an action ends depends on what it comes to alone. -/
theorem of_eq {b : Action τ ρ α} {t : Session τ ρ} (h : a s = b t) (hb : Ends b t Q E) :
    Ends a s Q E := by
  unfold Ends at hb ⊢
  rwa [h]

/-- A sequence ends as its second part does on every session that the first part may give. -/
theorem bind (h : Ends a s Q E) (hf : ∀ x s', Q x s' → Ends (f x) s' R E) :
    Ends (a >>= f) s R E := by
  unfold Ends at h ⊢
  cases ha : a s with
  | ok x s' =>
    have hs : (a >>= f) s = f x s' := by simp only [Bind.bind, EStateM.bind, ha]
    rw [ha] at h
    rw [hs]
    exact hf x s' h
  | error e s' =>
    -- A first part that stops is the end of the whole sequence.
    have hs : (a >>= f) s = .error e s' := by simp only [Bind.bind, EStateM.bind, ha]
    rw [ha] at h
    rw [hs]
    exact h

/-- The failures of the first part may be described more closely than those of the whole. -/
theorem bind_mono (h : Ends a s Q E') (he : ∀ e s', E' e s' → E e s')
    (hf : ∀ x s', Q x s' → Ends (f x) s' R E) : Ends (a >>= f) s R E :=
  bind (h.mono (fun _ _ => id) he) hf

/-- What holds however an action ends holds of the session after it. -/
theorem after {P : Session τ ρ → Prop} (h : Ends a s (fun _ => P) (fun _ => P)) :
    P (Session.after a s) := by
  unfold Ends at h
  unfold Session.after
  split at h <;> simp_all

/-! The actions that read, change and check go on with one session, so a sequence that starts with
one of them ends as what follows it does there. -/

theorem bind_get {f : Session τ ρ → Action τ ρ β} (h : Ends (f s) s R E) :
    Ends (get >>= f) s R E := h

theorem bind_current {f : Connection → Action τ ρ β} (h : Ends (f s.connection) s R E) :
    Ends (current >>= f) s R E := h

theorem bind_update {g : Connection → Connection} {f : Unit → Action τ ρ β}
    (h : Ends (f ()) { s with connection := g s.connection } R E) :
    Ends (update g >>= f) s R E := h

theorem bind_modify {g : Session τ ρ → Session τ ρ} {f : Unit → Action τ ρ β}
    (h : Ends (f ()) (g s) R E) : Ends (modify g >>= f) s R E := h

theorem bind_draw {g : ρ → α × ρ}
    (h : Ends (f (g s.random).1) { s with random := (g s.random).2 } R E) :
    Ends (draw g >>= f) s R E := h

theorem bind_check {r : Except Error α} (hf : ∀ x, r = .ok x → Ends (f x) s R E)
    (he : ∀ e, r = .error e → E (.failed e) s) : Ends (check r >>= f) s R E := by
  cases r with
  | ok x => exact hf x rfl
  | error e => exact he e rfl

/-- The transport's handle is only looked up; without one nothing happens. -/
theorem bind_link {f : Network.LinkId → Action τ ρ β}
    (hf : ∀ id, s.connection.link = some id → Ends (f id) s R E)
    (he : s.connection.link = none → E (.failed (.invalidState s.connection.state)) s) :
    Ends (link >>= f) s R E := by
  refine bind (Q := fun id s' => s' = s ∧ s.connection.link = some id) ?_ ?_
  · apply bind_current
    cases h : s.connection.link with
    | some id => exact ⟨rfl, rfl⟩
    | none => exact he h
  · intro id s' hq
    obtain ⟨rfl, hid⟩ := hq
    exact hf id hid

/-- Moving the state machine changes the state alone, and not at all if the event may not happen. -/
theorem bind_advance {event : Event} {f : Unit → Action τ ρ β}
    (hf : ∀ state, s.connection.state.next? event = some state →
      Ends (f ()) { s with connection := { s.connection with state } } R E)
    (he : ∀ e, E (.failed e) s) : Ends (advance event >>= f) s R E := by
  refine bind (Q := fun _ t => Ends (f ()) t R E) ?_ fun _ _ h => h
  refine bind_current (bind_check (fun state h => ?_) fun e _ => he e)
  have hnext : s.connection.state.next? event = some state := by
    unfold State.next at h
    split at h <;> simp_all
  exact hf state hnext

/-- The end of a connection is accepted in every state. -/
theorem bind_advance_close {f : Unit → Action τ ρ β}
    (h : Ends (f ()) { s with connection := { s.connection with state := .init } } R E) :
    Ends (advance .close >>= f) s R E := by
  have hnext : s.connection.state.next .close = .ok .init := by
    cases s.connection.state <;> rfl
  refine bind (Q := fun _ t => Ends (f ()) t R E) ?_ fun _ _ h => h
  refine bind_current (bind_check (fun state hstate => ?_) fun e he => ?_)
  · rw [hnext] at hstate
    cases hstate
    exact h
  · rw [hnext] at he
    cases he

end Ends

section

variable {s : Session τ ρ} {Q : α → Session τ ρ → Prop} {R : Unit → Session τ ρ → Prop}
  {E : Stop → Session τ ρ → Prop}

theorem ends_pure {x : α} (h : Q x s) : Ends (pure x : Action τ ρ α) s Q E := h

theorem ends_throw {e : Stop} (h : E e s) : Ends (throw e : Action τ ρ α) s Q E := h

theorem ends_fail {e : Error} (h : E (.failed e) s) : Ends (fail e : Action τ ρ α) s Q E := h

theorem ends_update {g : Connection → Connection}
    (h : R () { s with connection := g s.connection }) : Ends (update g) s R E := h

theorem ends_check {r : Except Error α} (hq : ∀ x, r = .ok x → Q x s)
    (he : ∀ e, r = .error e → E (.failed e) s) : Ends (check r : Action τ ρ α) s Q E := by
  cases r with
  | ok x => exact hq x rfl
  | error e => exact he e rfl

/-- An event leads to the next state or is rejected. -/
theorem ends_advance {event : Event}
    (hq : ∀ state, s.connection.state.next? event = some state →
      R () { s with connection := { s.connection with state } })
    (he : ∀ e, E (.failed e) s) : Ends (advance event : Action τ ρ Unit) s R E := by
  have h : Ends (advance event >>= pure) s R E := Ends.bind_advance hq he
  rwa [bind_pure] at h

end

/-! What is done about a failure: it is reported as a result, or the connection is given up. -/

section

variable {a : Action τ ρ α} {s : Session τ ρ} {Q : α → Session τ ρ → Prop}
  {E : Stop → Session τ ρ → Prop}

theorem attempt_ends {P : Session τ ρ → Prop} (h : Ends a s (fun _ => P) (fun _ => P)) :
    Ends (attempt a) s (fun _ => P) E := by
  unfold Ends at h ⊢
  unfold attempt
  cases ha : a s with
  | ok x s' => simpa only [ha] using h
  | error e s' => simpa only [ha] using h

/-- What stops an action is seen once more, on the session as it is left after that. -/
theorem orSuspend_ends
    (h : Ends a s Q fun e s' =>
      E e (if isResumable e then s' else { s' with connection := s'.connection.failed })) :
    Ends (orSuspend a) s Q E := by
  unfold Ends at h ⊢
  unfold orSuspend
  cases ha : a s with
  | ok x s' => simpa only [ha] using h
  | error e s' => simpa only [ha] using h

theorem orFail_ends
    (h : Ends a s Q fun e s' => E e { s' with connection := s'.connection.failed }) :
    Ends (orFail a) s Q E := by
  unfold Ends at h ⊢
  unfold orFail
  cases ha : a s with
  | ok x s' => simpa only [ha] using h
  | error e s' => simpa only [ha] using h

end

end Session
end TlsClient
