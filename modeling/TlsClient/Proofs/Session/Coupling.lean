import TlsClient.Proofs.Session.Completion
import TlsClient.Proofs.Session.Handshake

namespace TlsClient

namespace Connection

/-- No key, no secret and nothing that was protected is left. -/
structure Cleared (c : Connection) : Prop where
  masterSecret : c.masterSecret = noSecret
  writeProtection : c.writeProtection = none
  pendingReadProtection : c.pendingReadProtection = none
  readProtection : c.readProtection = none
  pending : c.pending = []

/-- Everything that sending and receiving need is there, and the suite is one of those configured. -/
structure Equipped (config : Config) (c : Connection) : Prop where
  link : c.link.isSome = true
  suite : ∃ suite ∈ config.suites, c.suite = some suite
  serverKey : c.serverKey.isSome = true
  writeProtection : c.writeProtection.isSome = true
  readProtection : c.readProtection.isSome = true
  pendingReadProtection : c.pendingReadProtection = none

/-- The three states that a session is in between two calls, and what each of them says about the
keys. -/
inductive Coupled (config : Config) (c : Connection) : Prop
  | init (hstate : c.state = .init) (hlink : c.link = none) (h : c.Cleared)
  | established (hstate : c.state = .established) (h : c.Equipped config)
  | error (hstate : c.state = .error) (h : c.Cleared)

section
variable {config : Config} {c : Connection}

theorem cleared_wiped (c : Connection) : c.wiped.Cleared := ⟨rfl, rfl, rfl, rfl, rfl⟩

theorem coupled_fresh (config : Config) : fresh.Coupled config :=
  .init rfl rfl ⟨rfl, rfl, rfl, rfl, rfl⟩

/-- After a failure nothing secret is left, whatever the connection was. -/
theorem coupled_failed (config : Config) (c : Connection) : c.failed.Coupled config := by
  have h := cleared_wiped c
  exact .error rfl ⟨h.masterSecret, h.writeProtection, h.pendingReadProtection, h.readProtection,
    h.pending⟩

/-- An established session has what it takes to send and to receive. -/
theorem Coupled.equipped (h : c.Coupled config) (hc : c.state.isEstablished = true) :
    c.Equipped config := by
  cases h with
  | established _ h => exact h
  | init hstate => rw [hstate] at hc; cases hc
  | error hstate => rw [hstate] at hc; cases hc

/-- A connection that is not established has nothing pending, so nothing can be handed out. -/
theorem Coupled.cleared (h : c.Coupled config) (hc : ¬ c.state.isEstablished = true) :
    c.Cleared := by
  cases h with
  | established hstate => rw [hstate] at hc; exact absurd rfl hc
  | init _ _ h => exact h
  | error _ h => exact h

end

end Connection

namespace Session

open Network Simulation

variable {τ ρ α : Type}

theorem ends_true (a : Action τ ρ α) (s : Session τ ρ) :
    Ends a s (fun _ _ => True) (fun _ _ => True) := by
  unfold Ends
  split <;> trivial

section
variable [RandomSource ρ]

/-- A handshake leaves both keys in place, and those of one conversation. -/
theorem Handshaken.equipped {host : String} {s t : Session (Recorded τ) ρ} {c : Conversation ρ}
    (h : Handshaken host s t c) (hpending : t.connection.pendingReadProtection = none) :
    t.connection.Equipped t.config := by
  obtain ⟨_, -, -, -, -, hread, -⟩ := h.ended
  exact {
    link := h.link
    suite := ⟨c.serverHello.suite, h.config ▸ h.agrees.suite, h.keyed.1⟩
    serverKey := by rw [h.serverKey]; rfl
    writeProtection := by rw [h.writeProtection]; rfl
    readProtection := by rw [hread]; rfl
    pendingReadProtection := hpending }

/-- Sending touches no key and leaves the state as it is. -/
theorem Attempted.eq_with {s t : Session (Recorded τ) ρ} {message : ContentType × Bytes}
    (h : Attempted s message t) : ∃ transport random clientSequence,
      t = { s with transport, random, connection := { s.connection with clientSequence } } := by
  rcases h with h | ⟨-, random, rfl⟩
  · generalize s.connection.writeProtection = p at h
    cases h <;> exact ⟨_, _, _, rfl⟩
  · exact ⟨s.transport, random, s.connection.clientSequence, rfl⟩

end

variable [Transport τ]

/-- Once the server has changed its cipher there is nothing left to change to. -/
theorem receiveChangeCipherSpec_pending (s : Session τ ρ) :
    Ends receiveChangeCipherSpec s (fun _ t => t.connection.pendingReadProtection = none)
      (fun _ _ => True) := by
  apply Ends.bind (ends_true receive s)
  intro record t _
  split
  · split
    · exact ends_fail trivial
    · apply Ends.bind_current
      split
      · exact ends_fail trivial
      · exact ends_update rfl
  · apply (heed_ends _ _).mono (fun _ _ h => h)
    intro _ _ _
    trivial
  · exact ends_fail trivial

theorem receiveEnd_pending (fuel : Nat) (s : Session (Recorded τ) ρ) :
    Ends (receiveEnd fuel) s (fun _ t => t.connection.pendingReadProtection = none)
      (fun _ _ => True) := by
  apply Ends.bind (receiveChangeCipherSpec_pending s)
  intro _ u hu
  apply Ends.bind_get
  -- Neither way to the end of the handshake touches the keys any more.
  split
  · apply Ends.bind_mono (receiveFinished_ends fuel u) (fun _ _ _ => trivial)
    intro _ v hv
    obtain ⟨_, _, -, -, -, -, -, _, _, _, _, _, _, _, rfl⟩ := hv
    exact ends_advance (fun _ _ => hu) fun _ => trivial
  · apply Ends.bind_mono (skipFinished_ends u) (fun _ _ _ => trivial)
    intro _ v hv
    obtain ⟨_, _, _, _, -, -, -, -, rfl⟩ := hv
    exact ends_advance (fun _ _ => hu) fun _ => trivial

variable [RandomSource ρ]

/-- No key is left waiting for a change of the cipher. -/
theorem negotiate_pending (fuel : Nat) (now : Clock) (host : String) (peer : Endpoint)
    (s : Session (Recorded τ) ρ) :
    Ends (negotiate fuel now host peer) s
      (fun _ t => t.connection.pendingReadProtection = none) (fun _ _ => True) := by
  -- Whatever came before it, the last step settles the matter.
  apply Ends.bind (ends_true _ s)
  intro id t _
  apply Ends.bind_update
  apply Ends.bind (ends_true (sendHello now host) _)
  intro _ t _
  apply Ends.bind (ends_true (receiveFlight fuel) t)
  intro _ t _
  apply Ends.bind (ends_true (sendKeyExchange fuel) t)
  intro preMaster t _
  apply Ends.bind (ends_true (deriveKeys preMaster) t)
  intro _ t _
  apply Ends.bind (ends_true sendChangeCipherSpec t)
  intro _ t _
  apply Ends.bind (ends_true sendFinished t)
  intro _ t _
  exact receiveEnd_pending fuel t

/-- A handshake that is carried out ends with all keys in place or with none. -/
theorem handshake_couples (fuel : Nat) (now : Clock) (host : String) (peer : Endpoint)
    {s : Session (Recorded τ) ρ} (hs : s.connection.Coupled s.config)
    (hfresh : s.connection.state = .init → s.connection = .fresh) :
    Ends (handshake fuel now host peer) s (fun _ t => t.connection.Coupled t.config)
      (fun _ t => t.connection.Coupled t.config) := by
  apply Ends.bind_current
  dsimp only
  by_cases hstate : s.connection.state = .init
  · rw [if_pos hstate]
    have hpending := negotiate_pending fuel now host peer s
    have htalk := negotiate_ends fuel now host peer s (hfresh hstate)
    apply orFail_ends
    apply (htalk.and hpending).mono
    · intro _ t ht
      obtain ⟨⟨c, hc⟩, hnone⟩ := ht
      exact .established hc.state (hc.equipped hnone)
    · intro e t _
      exact Connection.coupled_failed _ _
  · rw [if_neg hstate]
    exact ends_fail hs

/-- Every call keeps state and keys together, also one that fails. -/
theorem couples_of_performed {s t : Session (Recorded τ) ρ} {c : Call} {bs : Bytes}
    (h : Performed s c bs t) (ht : after (perform c) s = t)
    (hs : s.connection.Coupled s.config) : t.connection.Coupled t.config := by
  cases h with
  | sent hestablished _ hattempted =>
    obtain ⟨_, _, _, rfl⟩ := hattempted.eq_with
    exact .established (State.eq_established hestablished) { hs.equipped hestablished with }
  | refused _ => exact hs
  | @received fuel room _ _ hreceives _ =>
    by_cases hestablished : s.connection.state.isEstablished = true
    · -- Of the connection only the incoming side has changed, and no key belongs to it.
      obtain ⟨_, _, _, _, _, _, _, rfl⟩ := hreceives
      exact .established (State.eq_established hestablished) { hs.equipped hestablished with }
    · have hidle := after_recv_idle fuel room (hs.cleared hestablished).pending hestablished
      rw [← ht, hidle]
      exact hs
  | failed _ _ => exact Connection.coupled_failed _ _
  | closed hclosed =>
    rw [hclosed.connection]
    exact Connection.coupled_fresh _

/-- Between any two calls state and keys go together. -/
theorem Reachable.couples {s : Session (Recorded τ) ρ} (hs : Reachable s) :
    s.connection.Coupled s.config := by
  induction hs with
  | start t config random => exact Connection.coupled_fresh config
  | handshake hs fuel now host peer ih =>
    exact Ends.after (handshake_couples fuel now host peer ih hs.connection_eq_fresh)
  | call hs c ih => exact couples_of_performed (performed c _) rfl ih

/-- What a client can hold between two calls has its keys exactly if it is established, and only then
is a record handed over for sent data or any data handed out. -/
theorem state_determines_keys {s : Session (Recorded τ) ρ} (hs : Reachable s) :
    s.connection.Coupled s.config ∧
    (∀ data, (after (send data) s).transport.sent ≠ s.transport.sent →
      s.connection.state = .established) ∧
    (∀ data n t, send data s = .ok n t → s.connection.state = .established) ∧
    ∀ fuel room bs t, recv fuel room s = .ok bs t →
      s.connection.state = .established ∧ t.connection.state = .established := by
  have hcoupled := hs.couples
  refine ⟨hcoupled, ?_, ?_, ?_⟩
  · intro data hsent
    by_contra hstate
    apply hsent
    refine Ends.after (P := fun t => t.transport.sent = s.transport.sent)
      ((send_ends data s).mono ?_ ?_)
    · intro _ t h
      exact absurd (State.eq_established h.1) hstate
    · intro e t h
      rcases h with ⟨h, -⟩ | ⟨-, rfl⟩
      · exact absurd (State.eq_established h) hstate
      · rfl
  · intro data n t h
    exact State.eq_established ((send_ends data s).of_ok h).1
  · intro fuel room bs t h
    have hstate : s.connection.state = .established := by
      by_contra hstate
      have hnot : ¬ s.connection.state.isEstablished = true :=
        fun hs => hstate (State.eq_established hs)
      have hidle := recv_idle fuel room (hcoupled.cleared hnot).pending hnot
      rw [hidle] at h
      cases h
    have hreceives := ((recv_ends fuel room s).of_ok h).1
    exact ⟨hstate, hreceives.state.trans hstate⟩

/-- An established session of the recorded server's client has all its keys, and it is established
when it receives. -/
theorem sample_coupled : ∃ t, Tape.handshake Tape.client = .ok () t ∧
    t.connection.Equipped t.config := by
  obtain ⟨t, ht, -, hestablished, -⟩ := Tape.sample_established
  have hafter : after Tape.handshake Tape.client = t := by
    rw [after, ht]
  have hreachable : Reachable (after Tape.handshake Tape.client) :=
    .handshake (.start ..) 100 ⟨0, 0⟩ "" .unspecified
  rw [hafter] at hreachable
  have hstate := isEstablished_of_afterCalls hestablished
  exact ⟨t, ht, (state_determines_keys hreachable).1.equipped hstate⟩

end Session
end TlsClient
