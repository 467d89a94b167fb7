import TlsClient.Proofs.Record.Attempts
import TlsClient.Proofs.Wire.Framing

namespace TlsClient

open Network

def wire (records : List Record) : Bytes :=
  records.flatMap Record.toBytes

@[simp] theorem wire_nil : wire [] = [] := rfl

@[simp] theorem wire_singleton (r : Record) : wire [r] = r.toBytes := by
  simp [wire]

@[simp] theorem wire_append (a b : List Record) : wire (a ++ b) = wire a ++ wire b := by
  simp [wire]

namespace ContentType

def IsKnown (t : ContentType) : Prop := ∀ code, t ≠ .unknown code

theorem IsKnown.canonical {t : ContentType} (h : t.IsKnown) : t.Canonical := by
  cases t with
  | unknown code => exact absurd rfl (h code)
  | _ => rfl

end ContentType

/-- What holds of every record that is handed out. -/
structure Record.Acceptable (r : Record) : Prop where
  isKnown : r.contentType.IsKnown
  version : r.version.Canonical
  length_le : r.fragment.length ≤ maxCiphertext

namespace RecordReader

variable {r r' : RecordReader} {record : Record}

/-- A record that is handed out is what stood at the front of the buffer, and the rest is kept. -/
theorem next?_eq_some (h : r.next? = .ok (some (record, r'))) :
    record.Acceptable ∧ r.buffer = record.toBytes ++ r'.buffer := by
  unfold next? at h
  cases hp : RecordHeader.parse r.buffer with
  | error e => simp [hp] at h
  | ok parsed =>
    obtain ⟨header, rest⟩ := parsed
    -- The header is at the front of the buffer, and the fragment follows it.
    obtain ⟨-, hversion, -, hbuffer⟩ := RecordHeader.parse_eq_ok_iff.1 hp
    simp only [hp] at h
    split at h
    · cases h
    · rename_i hknown
      split at h
      · cases h
      · rename_i hlength
        split at h
        · cases h
        · rename_i fragment rest' ht
          obtain ⟨hfragment, rfl⟩ := Wire.Parser.take_eq_ok_iff.1 ht
          cases h
          refine ⟨⟨hknown, hversion, ?_⟩, ?_⟩
          · simp only [hfragment]
            omega
          · rw [hbuffer, Record.toBytes_eq]
            simp [Record.header, hfragment]

/-- Whatever a reader's wait comes to, what was in it and what arrived are the record that it hands
out, if it does, and what is in it afterwards. Nothing is sent meanwhile. -/
theorem read_conserves {τ : Type} [Transport τ] (id : LinkId) (polls : Nat) (r : RecordReader)
    (t : Recorded τ) :
    ∃ arrived,
      (read id polls r t).2.2.received = t.received ++ arrived ∧
      (read id polls r t).2.2.sent = t.sent ∧
      match (read id polls r t).1 with
      | .ok record =>
        record.Acceptable ∧
          r.buffer ++ arrived = record.toBytes ++ (read id polls r t).2.1.buffer
      | .error _ => r.buffer ++ arrived = (read id polls r t).2.1.buffer := by
  -- The induction is on the attempts; each one adds to the reader exactly what arrives.
  have hrun := read_run id polls r t
  generalize (read id polls r t).1 = answer, (read id polls r t).2.1 = r',
    (read id polls r t).2.2 = t' at hrun ⊢
  induction hrun with
  | found h =>
    refine ⟨[], (List.append_nil _).symm, rfl, ?_⟩
    simpa using next?_eq_some h
  | refused h => exact ⟨[], (List.append_nil _).symm, rfl, List.append_nil _⟩
  | timeout h => exact ⟨[], (List.append_nil _).symm, rfl, List.append_nil _⟩
  | @failed polls r t u e h hattempt =>
    obtain ⟨hreceived, hsent⟩ := received_attempt id t
    rw [hattempt] at hreceived hsent
    exact ⟨[], hreceived, hsent, List.append_nil _⟩
  | @next polls r r' t u t' bs answer h hattempt _ ih =>
    obtain ⟨hreceived, hsent⟩ := received_attempt id t
    rw [hattempt] at hreceived hsent
    change u.received = t.received ++ bs at hreceived
    obtain ⟨arrived, hreceived', hsent', hread⟩ := ih
    refine ⟨bs ++ arrived, ?_, hsent'.trans hsent, ?_⟩
    · rw [← List.append_assoc, ← hreceived]
      exact hreceived'
    · simpa only [append, List.append_assoc] using hread

end RecordReader

end TlsClient
