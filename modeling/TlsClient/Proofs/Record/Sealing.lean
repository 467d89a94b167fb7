import TlsClient.Message.Record
import TlsClient.Proofs.Record.Opening
import TlsClient.Proofs.Wire.Framing

namespace TlsClient

/-- A message to be sealed, with the random numbers that it is sealed with. -/
structure Outgoing (ρ : Type) where
  contentType : ContentType
  content : Bytes
  random : ρ

def Outgoing.message {ρ : Type} (m : Outgoing ρ) : ContentType × Bytes :=
  (m.contentType, m.content)

namespace Protection

variable {ρ : Type} [RandomSource ρ]

def sealAt (p : Protection) (i : Nat) (m : Outgoing ρ) : Record :=
  ⟨m.contentType, .tls12,
    (p.protect ⟨UInt64.ofNat i, m.contentType, .tls12⟩ m.content m.random).1⟩

def sealAll (p : Protection) (ms : List (Outgoing ρ)) : List Record :=
  ms.mapIdx p.sealAt

/-- A message of more does not change the records before it. -/
theorem sealAll_append_singleton (p : Protection) (ms : List (Outgoing ρ)) (m : Outgoing ρ) :
    p.sealAll (ms ++ [m]) = p.sealAll ms ++ [p.sealAt ms.length m] := by
  simp [sealAll, List.mapIdx_append]

/-- What a reader with the same keys makes of the `i`-th bytes that it is given: the type and the
content, if the bytes are one record that opens with sequence number `i`. -/
def readAt (p : Protection) (checkMac : Bool) (i : Nat) (bytes : Bytes) :
    Option (ContentType × Bytes) :=
  match Record.parse bytes with
  | .ok (r, []) =>
    match p.unprotect ⟨UInt64.ofNat i, r.contentType, .tls12⟩ r.fragment checkMac with
    | .ok content => some (r.contentType, content)
    | .error _ => none
  | _ => none

/-- A record opens under the sequence number that it was sealed with. -/
theorem readAt_sealAt (p : Protection) (checkMac : Bool) (i : Nat) {m : Outgoing ρ}
    (htype : m.contentType.Canonical) (hlength : m.content.length ≤ Record.maxPlaintext) :
    p.readAt checkMac i (p.sealAt i m).toBytes = some m.message := by
  have hfragment : (p.sealAt i m).fragment.length ≤ Record.maxCiphertext :=
    p.length_protect_le _ m.random hlength
  -- The fragment is within the limit of a record, so the reader takes it as one.
  have hparse : Record.parse (p.sealAt i m).toBytes = .ok (p.sealAt i m, []) :=
    Record.parse_eq_ok_iff.2 ⟨htype, rfl, hfragment, (List.append_nil _).symm⟩
  have hopen := p.unprotect_protect ⟨UInt64.ofNat i, m.contentType, .tls12⟩ m.content m.random
    checkMac
  unfold readAt
  rw [hparse]
  simp only [sealAt, hopen]
  rfl

end Protection
end TlsClient
