import TlsClient.Proofs.Session.Calls
import TlsClient.Proofs.Session.Recording

namespace TlsClient.Session

open Network

variable {τ ρ : Type}

def recalling [Transport τ] (alert : Option Alert) : Translation τ τ where
  transport t := t
  commutes := .id
  lastAlert last := last.or alert
  lastAlert_some _ := rfl

theorem recalling_start [Transport τ] (alert : Option Alert) (t : τ) (config : Config) (random : ρ) :
    (recalling alert).apply (start t config random) =
      { start t config random with lastAlert := alert } := by
  rw [Translation.apply, recalling, start]
  dsimp only
  rw [Option.none_or]

section
variable [RandomSource ρ]

/-- An attempt to send leaves the last alert alone. -/
theorem Attempted.lastAlert {s s' : Session (Recorded τ) ρ} {message : ContentType × Bytes}
    (h : Attempted s message s') : s'.lastAlert = s.lastAlert := by
  rcases h with h | ⟨-, random, rfl⟩
  · generalize s.connection.writeProtection = p at h
    cases h <;> rfl
  · rfl

/-- What the transport is handed when a message is attempted: one record with the message, in the clear
or under the write keys, or nothing. -/
theorem Attempted.sent {s s' : Session (Recorded τ) ρ} {contentType : ContentType} {payload : Bytes}
    (h : Attempted s (contentType, payload) s') :
    s'.transport.sent = s.transport.sent ∨
      s'.transport.sent = s.transport.sent ++ [Record.toBytes ⟨contentType, .tls12,
        match s.connection.writeProtection with
        | none => payload
        | some p =>
          (p.protect ⟨s.connection.clientSequence, contentType, .tls12⟩ payload s.random).1⟩] := by
  rcases h with h | ⟨-, random, rfl⟩
  · generalize s.connection.writeProtection = p at h
    cases h with
    | clear inner _ => exact .inr rfl
    | sealed p inner _ _ => exact .inr rfl
  · exact .inl rfl

/-- A reset session is a new one, apart from its transport, its random numbers and the last alert.
-/
theorem Reset.eq_start {s s' : Session (Recorded τ) ρ} (h : Reset s s') :
    s' = { start s'.transport s.config s'.random with lastAlert := s.lastAlert } := by
  obtain ⟨t, inner, ht, rfl⟩ := h
  by_cases hs : s.connection.state.isEstablished = true
  · rw [if_pos hs] at ht
    rw [← ht.same.1, ← ht.lastAlert]
    rfl
  · rw [if_neg hs] at ht
    subst ht
    rfl

/-- Closing the transport offers it nothing, so all that may be new is the farewell. -/
theorem Reset.sent {s s' : Session (Recorded τ) ρ} (h : Reset s s') :
    s'.transport.sent = s.transport.sent ∨
      s.connection.state = .established ∧
        s'.transport.sent = s.transport.sent ++ [Record.toBytes ⟨.alert, .tls12,
          match s.connection.writeProtection with
          | none => Alert.closeNotify.toBytes
          | some p =>
            (p.protect ⟨s.connection.clientSequence, .alert, .tls12⟩ Alert.closeNotify.toBytes
              s.random).1⟩] := by
  obtain ⟨t, inner, ht, rfl⟩ := h
  by_cases hs : s.connection.state.isEstablished = true
  · rw [if_pos hs] at ht
    rcases ht.sent with hsent | hsent
    · exact .inl hsent
    · exact .inr ⟨State.eq_established hs, hsent⟩
  · rw [if_neg hs] at ht
    subst ht
    exact .inl rfl

end

variable [Transport τ] [RandomSource ρ]

/-- Closing resets every session, whatever fails on the way. -/
theorem after_close_reset (s : Session (Recorded τ) ρ) : Reset s (after close s) :=
  (close_resets s).after

theorem after_close_unrecorded (s : Session (Recorded τ) ρ) :
    after close s.unrecorded = (after close s).unrecorded :=
  Mirrors.after (Follows.mirrors .close) s

theorem after_close_eq (s : Session τ ρ) :
    after close s =
      { start (after close s).transport s.config (after close s).random with
        lastAlert := s.lastAlert } := by
  -- The session is one without the record of its transport, which tells what happens to it.
  let r : Session (Recorded τ) ρ := { s with transport := .start s.transport }
  have hreset := (after_close_reset r).eq_start
  have hs : after close s = (after close r).unrecorded := after_close_unrecorded r
  rw [hs, hreset]
  rfl

/-- No handshake asks for the last alert. -/
theorem follows_handshake (alert : Option Alert) (fuel : Nat) (now : Clock) (host : String)
    (peer : Endpoint) :
    Follows (recalling alert : Translation τ τ) (handshake fuel now host peer : Action τ ρ Unit)
      (handshake fuel now host peer) :=
  .handshake fuel now host peer

/-- The alert of an earlier connection makes no difference to a handshake. -/
theorem handshake_recalling (alert : Option Alert) (t : τ) (config : Config) (random : ρ)
    (fuel : Nat) (now : Clock) (host : String) (peer : Endpoint) :
    handshake fuel now host peer { start t config random with lastAlert := alert } =
      match handshake fuel now host peer (start t config random) with
      | .ok x u => .ok x { u with lastAlert := u.lastAlert.or alert }
      | .error e u => .error e { u with lastAlert := u.lastAlert.or alert } := by
  rw [← recalling_start, follows_handshake alert fuel now host peer (start t config random)]
  cases handshake fuel now host peer (start t config random) <;> rfl

/-- Nor does it make a difference to what is handed out afterwards. -/
theorem delivered_recalling (alert : Option Alert) (t : τ) (config : Config) (random : ρ)
    (fuel : Nat) (now : Clock) (host : String) (peer : Endpoint) (calls : List Call) :
    delivered calls
        (after (handshake fuel now host peer) { start t config random with lastAlert := alert }) =
      delivered calls (after (handshake fuel now host peer) (start t config random)) := by
  rw [← recalling_start, (follows_handshake alert fuel now host peer).after]
  exact Translation.delivered_apply _ calls _

/-- Whatever fails while a session is closed, it is then as it was when it was started, but for the
random numbers that were drawn and the last alert. So the next handshake gives what it gives on a new
session, against whatever the transport does. On the way the transport was handed nothing unless the
session was established, and then at most the record with the farewell. -/
theorem close_renews (s : Session τ ρ) :
    after close s =
      { start (after close s).transport s.config (after close s).random with
        lastAlert := s.lastAlert } ∧
    (∀ (t : τ) (fuel : Nat) (now : Clock) (host : String) (peer : Endpoint),
      (handshake fuel now host peer { after close s with transport := t } =
        match handshake fuel now host peer (start t s.config (after close s).random) with
        | .ok x u => .ok x { u with lastAlert := u.lastAlert.or s.lastAlert }
        | .error e u => .error e { u with lastAlert := u.lastAlert.or s.lastAlert }) ∧
      ∀ calls : List Call,
        delivered calls
            (after (handshake fuel now host peer) { after close s with transport := t }) =
          delivered calls
            (after (handshake fuel now host peer) (start t s.config (after close s).random))) ∧
    ∀ r : Session (Recorded τ) ρ, r.unrecorded = s →
      (after close r).transport.sent = r.transport.sent ∨
        s.connection.state = .established ∧
          (after close r).transport.sent = r.transport.sent ++ [Record.toBytes ⟨.alert, .tls12,
            match s.connection.writeProtection with
            | none => Alert.closeNotify.toBytes
            | some p =>
              (p.protect ⟨s.connection.clientSequence, .alert, .tls12⟩ Alert.closeNotify.toBytes
                s.random).1⟩] := by
  refine ⟨after_close_eq s, fun t fuel now host peer => ?_, fun r hr => ?_⟩
  · have hclosed : { after close s with transport := t } =
        { start t s.config (after close s).random with lastAlert := s.lastAlert } := by
      rw [after_close_eq s]
      rfl
    rw [hclosed]
    exact ⟨handshake_recalling s.lastAlert t _ _ fuel now host peer,
      delivered_recalling s.lastAlert t _ _ fuel now host peer⟩
  · subst hr
    exact (after_close_reset r).sent

end TlsClient.Session
