import TlsClient.Network.Recorded
import TlsClient.Proofs.Session.Rules
import TlsClient.Session.Records

namespace TlsClient.Session

open Network

variable {τ ρ : Type}

def offering (s : Session (Recorded τ) ρ) (record : Record) (inner : τ) (random : ρ)
    (sequence : UInt64) : Session (Recorded τ) ρ :=
  { s with
    transport := { s.transport with inner, sent := s.transport.sent ++ [record.toBytes] }
    random
    connection := { s.connection with clientSequence := sequence } }

section
variable [RandomSource ρ]

/-- A payload was offered to the transport: as it is if there is no protection, and under the next
sequence number if there is. -/
inductive Offered (s : Session (Recorded τ) ρ) (contentType : ContentType) (payload : Bytes) :
    Option Protection → Session (Recorded τ) ρ → Prop
  | clear (inner : τ) (h : payload.length ≤ Record.maxPlaintext) :
    Offered s contentType payload none
      (s.offering ⟨contentType, .tls12, payload⟩ inner s.random s.connection.clientSequence)
  | sealed (p : Protection) (inner : τ) (h : payload.length ≤ Record.maxPlaintext)
    (hroom : s.connection.clientSequence.toNat + 1 < UInt64.size) :
    Offered s contentType payload (some p)
      (s.offering
        ⟨contentType, .tls12,
          (p.protect ⟨s.connection.clientSequence, contentType, .tls12⟩ payload s.random).1⟩
        inner
        (p.protect ⟨s.connection.clientSequence, contentType, .tls12⟩ payload s.random).2
        (s.connection.clientSequence + 1))

section
variable {s s' : Session (Recorded τ) ρ} {contentType : ContentType} {payload : Bytes}
  {protection : Option Protection}

theorem Offered.eq_clear (h : Offered s contentType payload protection s')
    (hp : protection = none) :
    payload.length ≤ Record.maxPlaintext ∧ ∃ inner,
      s' = s.offering ⟨contentType, .tls12, payload⟩ inner s.random
        s.connection.clientSequence := by
  subst hp
  cases h with
  | clear inner hlength => exact ⟨hlength, inner, rfl⟩

theorem Offered.eq_sealed {p : Protection} (h : Offered s contentType payload protection s')
    (hp : protection = some p) :
    payload.length ≤ Record.maxPlaintext ∧
      s.connection.clientSequence.toNat + 1 < UInt64.size ∧ ∃ inner random,
      s' = s.offering
        ⟨contentType, .tls12,
          (p.protect ⟨s.connection.clientSequence, contentType, .tls12⟩ payload s.random).1⟩
        inner random (s.connection.clientSequence + 1) := by
  subst hp
  cases h with
  | sealed _ inner hlength hroom => exact ⟨hlength, hroom, inner, _, rfl⟩

end

/-- A payload was not offered: there is no link, it is too long or the sequence numbers are used
up. At most random numbers were drawn for it. -/
structure Withheld (s : Session (Recorded τ) ρ) (payload : Bytes) (protection : Option Protection)
    (s' : Session (Recorded τ) ρ) : Prop where
  reason : s.connection.link = none ∨ Record.maxPlaintext < payload.length ∨
    protection.isSome ∧ UInt64.size ≤ s.connection.clientSequence.toNat + 1
  same : ∃ random, s' = { s with random }

end

theorem nextSequence_eq_ok {n m : UInt64} (h : nextSequence n = .ok m) :
    n.toNat + 1 < UInt64.size ∧ m = n + 1 := by
  unfold nextSequence at h
  split at h
  · rename_i hroom
    exact ⟨hroom, by simpa using h.symm⟩
  · cases h

theorem nextSequence_eq_error {n : UInt64} {e : Error} (h : nextSequence n = .error e) :
    UInt64.size ≤ n.toNat + 1 ∧ e = .crypto .sequenceExhausted := by
  unfold nextSequence at h
  split at h
  · cases h
  · rename_i hfull
    exact ⟨Nat.not_lt.1 hfull, by simpa using h.symm⟩

/-- A protected fragment takes the next sequence number, unless there is none left. -/
theorem fragmentOf_ends {τ' : Type} [RandomSource ρ] (p : Protection) (contentType : ContentType)
    (payload : Bytes) (s : Session τ' ρ) :
    Ends (fragmentOf (some p) contentType payload) s
      (fun fragment s' =>
        s.connection.clientSequence.toNat + 1 < UInt64.size ∧
        fragment =
          (p.protect ⟨s.connection.clientSequence, contentType, .tls12⟩ payload s.random).1 ∧
        s' = { s with
          random :=
            (p.protect ⟨s.connection.clientSequence, contentType, .tls12⟩ payload s.random).2
          connection :=
            { s.connection with clientSequence := s.connection.clientSequence + 1 } })
      (fun _ s' => UInt64.size ≤ s.connection.clientSequence.toNat + 1 ∧
        ∃ random, s' = { s with random }) := by
  refine Ends.bind_current (Ends.bind_draw (Ends.bind_check ?_ ?_))
  · intro n hn
    obtain ⟨hroom, rfl⟩ := nextSequence_eq_ok hn
    exact Ends.bind_update (ends_pure ⟨hroom, rfl, rfl⟩)
  · intro e he
    exact ⟨(nextSequence_eq_error he).1, _, rfl⟩

variable [Transport τ]

/-- The record is made first and offered afterwards; what the transport accepts decides about the
result alone. -/
theorem offer_ends (id : LinkId) (record : Record) (s : Session (Recorded τ) ρ)
    {Q : Session (Recorded τ) ρ → Prop}
    (h : ∀ inner, Q (s.offering record inner s.random s.connection.clientSequence)) :
    Ends (do
        let accepted ← operate (Transport.send · id record.toBytes)
        if accepted = record.toBytes.length then return ()
        else fail (.transport (.shortWrite accepted record.toBytes.length)) :
        Action (Recorded τ) ρ Unit) s (fun _ => Q) (fun _ => Q) := by
  have hsend : Ends (operate (Transport.send · id record.toBytes) : Action (Recorded τ) ρ Nat) s
      (fun _ s' => Q s') (fun _ s' => Q s') := by
    unfold Ends operate
    simp only [Transport.send, Recorded.send]
    cases Transport.send s.transport.inner id record.toBytes with
    | mk result inner =>
      cases result with
      | ok n => exact h inner
      | error e => exact h inner
  -- A short write is an error, but the record has been offered all the same.
  apply Ends.bind hsend
  intro accepted s' hs'
  split
  · exact ends_pure hs'
  · exact ends_fail hs'

variable [RandomSource ρ]

/-- A record is offered once or withheld; if the action gives a result, it was offered. -/
theorem transmit_ends (protection : Option Protection) (contentType : ContentType)
    (payload : Bytes) (s : Session (Recorded τ) ρ) :
    Ends (transmit protection contentType payload) s
      (fun _ s' => Offered s contentType payload protection s')
      (fun _ s' => Offered s contentType payload protection s' ∨
        Withheld s payload protection s') := by
  refine Ends.bind_link (fun id _ => ?_) fun h => .inr ⟨.inl h, s.random, rfl⟩
  split
  · rename_i hlong
    exact ends_fail (.inr ⟨.inr (.inl hlong), s.random, rfl⟩)
  · rename_i hshort
    have hlength : payload.length ≤ Record.maxPlaintext := Nat.not_lt.1 hshort
    -- In the clear the fragment is the payload itself, and no sequence number is asked for.
    cases protection with
    | none =>
      refine Ends.bind (Q := fun fragment t => fragment = payload ∧ t = s) ⟨rfl, rfl⟩ ?_
      intro _ t hq
      obtain ⟨rfl, rfl⟩ := hq
      refine (offer_ends id _ _ (Q := Offered t contentType _ none) ?_).mono (fun _ _ h => h)
        fun _ _ => .inl
      intro inner
      exact .clear inner hlength
    | some p =>
      refine Ends.bind_mono (fragmentOf_ends p contentType payload s) ?_ ?_
      · intro _ t hq
        obtain ⟨hfull, hsame⟩ := hq
        exact .inr ⟨.inr (.inr ⟨rfl, hfull⟩), hsame⟩
      · intro _ _ hq
        obtain ⟨hroom, rfl, rfl⟩ := hq
        refine (offer_ends id _ _ (Q := Offered s contentType payload (some p)) ?_).mono
          (fun _ _ h => h) fun _ _ => .inl
        intro inner
        exact .sealed p inner hlength hroom

theorem transmitProtected_ends (contentType : ContentType) (payload : Bytes)
    (s : Session (Recorded τ) ρ) :
    Ends (transmitProtected contentType payload) s
      (fun _ s' => Offered s contentType payload s.connection.writeProtection s')
      (fun _ s' => Offered s contentType payload s.connection.writeProtection s' ∨
        Withheld s payload s.connection.writeProtection s') := by
  exact Ends.bind_current (transmit_ends _ contentType payload s)

end TlsClient.Session
