import TlsClient.Proofs.Session.Rules
import TlsClient.Proofs.Session.Translation

namespace TlsClient.Session

open Network

variable {τ ρ α : Type}

def unrecorded (s : Session (Recorded τ) ρ) : Session τ ρ :=
  { s with transport := s.transport.inner }

/-- The action `b` does without the record what `a` does with it. -/
def Mirrors (a : Action (Recorded τ) ρ α) (b : Action τ ρ α) : Prop :=
  ∀ s, b s.unrecorded = match a s with
    | .ok x t => .ok x t.unrecorded
    | .error e t => .error e t.unrecorded

/-- The session afterwards is the same without the record, whether or not the action has stopped. -/
theorem Mirrors.after {a : Action (Recorded τ) ρ α} {b : Action τ ρ α} (h : Mirrors a b)
    (s : Session (Recorded τ) ρ) : Session.after b s.unrecorded = (Session.after a s).unrecorded := by
  have hs := h s
  unfold Session.after
  rw [hs]
  cases a s <;> rfl

/-- An action ends without the record as it does with it. -/
theorem Mirrors.ends {a : Action (Recorded τ) ρ α} {b : Action τ ρ α} (h : Mirrors a b)
    {s : Session (Recorded τ) ρ} {Q : α → Session τ ρ → Prop} {E : Stop → Session τ ρ → Prop}
    (ha : Ends a s (fun x t => Q x t.unrecorded) fun e t => E e t.unrecorded) :
    Ends b s.unrecorded Q E := by
  unfold Ends at ha ⊢
  rw [h s]
  cases hs : a s with
  | ok x t =>
    rw [hs] at ha
    exact ha
  | error e t =>
    rw [hs] at ha
    exact ha

/-- What goes through without the record goes through with it. -/
theorem Mirrors.exists_ok {a : Action (Recorded τ) ρ α} {b : Action τ ρ α} (h : Mirrors a b)
    {s : Session (Recorded τ) ρ} {x : α} {t : Session τ ρ} (hb : b s.unrecorded = .ok x t) :
    ∃ u, a s = .ok x u ∧ u.unrecorded = t := by
  rw [h s] at hb
  cases hs : a s with
  | ok y u =>
    rw [hs] at hb
    cases hb
    exact ⟨u, rfl, rfl⟩
  | error e u =>
    rw [hs] at hb
    cases hb

/-- Equal outcomes with the record are equal without it. -/
theorem Mirrors.eq {a a' : Action (Recorded τ) ρ α} {b b' : Action τ ρ α} (h : Mirrors a b)
    (h' : Mirrors a' b') {s : Session (Recorded τ) ρ} (hs : a s = a' s) :
    b s.unrecorded = b' s.unrecorded := by
  rw [h s, h' s, hs]

variable [Transport τ]

def withoutRecord : Translation (Recorded τ) τ where
  transport := Recorded.inner
  commutes := .inner
  lastAlert := id
  lastAlert_some _ := rfl

theorem Follows.mirrors {a : Action (Recorded τ) ρ α} {b : Action τ ρ α}
    (h : Follows withoutRecord a b) : Mirrors a b := by
  intro s
  have hs := h s
  cases ha : a s with
  | ok x t =>
    rw [ha] at hs
    exact hs
  | error e t =>
    rw [ha] at hs
    exact hs

variable [RandomSource ρ]

/-- A handshake cannot tell whether its transport is recorded. -/
theorem Mirrors.handshake (fuel : Nat) (now : Clock) (host : String) (peer : Endpoint) :
    Mirrors (Session.handshake fuel now host peer : Action (Recorded τ) ρ Unit)
      (Session.handshake fuel now host peer) :=
  Follows.mirrors (.handshake fuel now host peer)

/-- Neither can a call. -/
theorem Mirrors.perform (c : Call) :
    Mirrors (Session.perform c : Action (Recorded τ) ρ Bytes) (Session.perform c) :=
  Follows.mirrors (.perform c)

/-- Calls in a row leave the same session with the record and without it. -/
theorem afterCalls_unrecorded (calls : List Call) (s : Session (Recorded τ) ρ) :
    afterCalls calls s.unrecorded = (afterCalls calls s).unrecorded :=
  withoutRecord.afterCalls_apply calls s

/-- They hand out the same data as well. -/
theorem delivered_unrecorded (calls : List Call) (s : Session (Recorded τ) ρ) :
    delivered calls s.unrecorded = delivered calls s :=
  withoutRecord.delivered_apply calls s

/-- Every session that a client can hold is one whose transport was recorded all along, without the
record. -/
theorem Reachable.exists_recorded {s : Session τ ρ} (hs : Reachable s) :
    ∃ r : Session (Recorded τ) ρ, Reachable r ∧ r.unrecorded = s := by
  induction hs with
  | start t config random => exact ⟨.start (.start t) config random, .start .., rfl⟩
  | handshake _ fuel now host peer ih =>
    obtain ⟨r, hr, rfl⟩ := ih
    exact ⟨_, hr.handshake fuel now host peer, ((Mirrors.handshake fuel now host peer).after r).symm⟩
  | call _ c ih =>
    obtain ⟨r, hr, rfl⟩ := ih
    exact ⟨_, hr.call c, ((Mirrors.perform c).after r).symm⟩

end TlsClient.Session
