import TlsClient.Proofs.Record.Arrival
import TlsClient.Proofs.Session.Transmission
import TlsClient.Session.Application

/-!
What receiving does to a session. An `Intake` is a stretch of a session's run in which records were
taken off the wire, each one opened under the next sequence number if the read keys are in use; two
stretches make up one. Whatever receiving comes to, the outgoing side of a session stays as it is.
-/

namespace TlsClient

/-- Records that open one after the other, with sequence numbers that start at `n`. -/
def Protection.Opens (p : Protection) (checkMac : Bool) (n : Nat) (xs : List (Record × Bytes)) :
    Prop :=
  ∀ i r content, xs[i]? = some (r, content) →
    p.unprotect ⟨UInt64.ofNat (n + i), r.contentType, r.version⟩ r.fragment checkMac = .ok content

/-- Records open one after the other if the numbers of the later ones follow those of the earlier
ones. -/
theorem Protection.opens_append {p : Protection} {checkMac : Bool} {n : Nat}
    {xs ys : List (Record × Bytes)} (hx : p.Opens checkMac n xs)
    (hy : p.Opens checkMac (n + xs.length) ys) : p.Opens checkMac n (xs ++ ys) := by
  intro i r content h
  rw [List.getElem?_append] at h
  split at h
  · exact hx i r content h
  · rename_i hlong
    have hi : n + xs.length + (i - xs.length) = n + i := by omega
    exact hi ▸ hy (i - xs.length) r content h

namespace Session

open Network

variable {τ ρ : Type}

/-- `s'` is `s` after receiving: the transport has moved on, and of the connection only what belongs
to the incoming side may differ. -/
def Receives (s s' : Session (Recorded τ) ρ) : Prop :=
  ∃ inner received lastAlert reader sequence buffer pending,
    s' = { s with
      transport := ⟨inner, s.transport.sent, received⟩
      lastAlert
      connection := { s.connection with
        reader, serverSequence := sequence, handshakeBuffer := buffer, pending } }

namespace Receives

variable {s s' s'' : Session (Recorded τ) ρ}

theorem refl (s : Session (Recorded τ) ρ) : Receives s s :=
  ⟨_, _, _, _, _, _, _, rfl⟩

theorem trans (h : Receives s s') (h' : Receives s' s'') : Receives s s'' := by
  obtain ⟨_, _, _, _, _, _, _, rfl⟩ := h
  obtain ⟨inner, received, lastAlert, reader, sequence, buffer, pending, rfl⟩ := h'
  exact ⟨inner, received, lastAlert, reader, sequence, buffer, pending, rfl⟩

theorem state (h : Receives s s') : s'.connection.state = s.connection.state := by
  obtain ⟨_, _, _, _, _, _, _, rfl⟩ := h
  rfl

end Receives

/-- From `s` to `s'` the records of `xs` were taken off the wire, each with the content that it is
paired with: what was in the reader and what has arrived are these records and what is in the reader
now. Without read keys a content is the fragment; with them the records open with the sequence
numbers that follow. -/
structure Intake (s s' : Session (Recorded τ) ρ) (xs : List (Record × Bytes)) : Prop where
  acceptable : ∀ x ∈ xs, x.1.Acceptable
  config : s'.config = s.config
  readProtection : s'.connection.readProtection = s.connection.readProtection
  arrival : ∃ arrived, s'.transport.received = s.transport.received ++ arrived ∧
    s.connection.reader.buffer ++ arrived =
      wire (xs.map Prod.fst) ++ s'.connection.reader.buffer
  opened : match s.connection.readProtection with
    | none =>
      (∀ x ∈ xs, x.2 = x.1.fragment) ∧ s'.connection.serverSequence = s.connection.serverSequence
    | some p =>
      p.Opens s.config.verifyMac s.connection.serverSequence.toNat xs ∧
        s'.connection.serverSequence.toNat = s.connection.serverSequence.toNat + xs.length

namespace Intake

variable {s s' s'' : Session (Recorded τ) ρ} {xs ys : List (Record × Bytes)}

/-- What leaves the incoming side alone takes no record in. -/
theorem of_same (hconfig : s'.config = s.config)
    (hread : s'.connection.readProtection = s.connection.readProtection)
    (hreceived : s'.transport.received = s.transport.received)
    (hreader : s'.connection.reader = s.connection.reader)
    (hsequence : s'.connection.serverSequence = s.connection.serverSequence) : Intake s s' [] := by
  refine ⟨by simp, hconfig, hread, ⟨[], ?_, ?_⟩, ?_⟩
  · simpa using hreceived
  · simp [hreader]
  · cases s.connection.readProtection with
    | none => exact ⟨by simp, hsequence⟩
    | some p => exact ⟨by simp [Protection.Opens], by simp [hsequence]⟩

theorem refl (s : Session (Recorded τ) ρ) : Intake s s [] :=
  of_same rfl rfl rfl rfl rfl

/-- Records that are taken in one after the other stand on the wire one after the other. -/
theorem trans (h : Intake s s' xs) (h' : Intake s' s'' ys) : Intake s s'' (xs ++ ys) := by
  obtain ⟨arrived, hreceived, hreader⟩ := h.arrival
  obtain ⟨arrived', hreceived', hreader'⟩ := h'.arrival
  have hread := h.readProtection
  have hopened := h.opened
  have hopened' := h'.opened
  refine ⟨?_, h'.config.trans h.config, h'.readProtection.trans hread,
    ⟨arrived ++ arrived', ?_, ?_⟩, ?_⟩
  · exact List.forall_mem_append.2 ⟨h.acceptable, h'.acceptable⟩
  · rw [hreceived', hreceived, List.append_assoc]
  · rw [← List.append_assoc, hreader, List.append_assoc, hreader', List.map_append, wire_append,
      List.append_assoc]
  · -- The second stretch goes on with the number at which the first one ended.
    rw [hread, h.config] at hopened'
    cases hp : s.connection.readProtection with
    | none =>
      simp only [hp] at hopened hopened' ⊢
      refine ⟨?_, hopened'.2.trans hopened.2⟩
      exact List.forall_mem_append.2 ⟨hopened.1, hopened'.1⟩
    | some p =>
      simp only [hp] at hopened hopened' ⊢
      have hcount := hopened.2
      refine ⟨Protection.opens_append hopened.1 (hcount ▸ hopened'.1), ?_⟩
      rw [hopened'.2, hcount, List.length_append, Nat.add_assoc]

/-- What has arrived ends with what is in the reader, before the records and after them. -/
theorem received (h : Intake s s' xs) {before : Bytes}
    (hs : s.transport.received = before ++ s.connection.reader.buffer) :
    s'.transport.received = before ++ wire (xs.map Prod.fst) ++ s'.connection.reader.buffer := by
  obtain ⟨arrived, hreceived, hreader⟩ := h.arrival
  calc s'.transport.received
      = before ++ (s.connection.reader.buffer ++ arrived) := by
        rw [hreceived, hs, List.append_assoc]
    _ = before ++ wire (xs.map Prod.fst) ++ s'.connection.reader.buffer := by
        rw [hreader, List.append_assoc]

end Intake

/-! ### One record -/

def takingIn (s : Session (Recorded τ) ρ) (inner : τ) (received : Bytes) (reader : RecordReader)
    (sequence : UInt64) : Session (Recorded τ) ρ :=
  { s with
    transport := { s.transport with inner, received }
    connection := { s.connection with reader, serverSequence := sequence } }

theorem receives_takingIn (s : Session (Recorded τ) ρ) (inner : τ) (received : Bytes)
    (reader : RecordReader) (sequence : UInt64) :
    Receives s (s.takingIn inner received reader sequence) :=
  ⟨inner, received, s.lastAlert, reader, sequence, _, _, rfl⟩

theorem intake_nil (s : Session (Recorded τ) ρ) (inner : τ) {arrived : Bytes}
    {reader : RecordReader} (h : s.connection.reader.buffer ++ arrived = reader.buffer) :
    Intake s (s.takingIn inner (s.transport.received ++ arrived) reader
      s.connection.serverSequence) [] := by
  refine ⟨by simp, rfl, rfl, ⟨arrived, rfl, h⟩, ?_⟩
  cases s.connection.readProtection with
  | none => exact ⟨by simp, rfl⟩
  | some p => exact ⟨by simp [Protection.Opens], rfl⟩

/-- One record is taken in with the content that it opens to. -/
theorem intake_singleton (s : Session (Recorded τ) ρ) (inner : τ) {arrived content : Bytes}
    {reader : RecordReader} {record : Record} {sequence : UInt64}
    (hacceptable : record.Acceptable)
    (h : s.connection.reader.buffer ++ arrived = record.toBytes ++ reader.buffer)
    (hopened : match s.connection.readProtection with
      | none => content = record.fragment ∧ sequence = s.connection.serverSequence
      | some p =>
        p.unprotect ⟨s.connection.serverSequence, record.contentType, record.version⟩
          record.fragment s.config.verifyMac = .ok content ∧
        sequence.toNat = s.connection.serverSequence.toNat + 1) :
    Intake s (s.takingIn inner (s.transport.received ++ arrived) reader sequence)
      [(record, content)] := by
  have hwire : wire ([(record, content)].map Prod.fst) = record.toBytes := wire_singleton record
  refine ⟨by simpa using hacceptable, rfl, rfl, ⟨arrived, rfl, hwire.symm ▸ h⟩, ?_⟩
  cases hp : s.connection.readProtection with
  | none =>
    simp only [hp] at hopened ⊢
    exact ⟨by simpa using hopened.1, hopened.2⟩
  | some p =>
    simp only [hp] at hopened ⊢
    refine ⟨?_, hopened.2⟩
    intro i r c hi
    obtain ⟨hi0, hrc⟩ := List.getElem?_eq_some_iff.1 hi
    have hzero : i = 0 := by simpa using hi0
    subst hzero
    obtain ⟨rfl, rfl⟩ := Prod.mk.inj hrc
    simpa using hopened.1

/-- A fragment that does not open is refused in one way only. -/
theorem unprotect_eq_error {p : Protection} {context : RecordContext} {fragment : Bytes}
    {checkMac : Bool} {e : Error} (h : p.unprotect context fragment checkMac = .error e) :
    e = .badRecordMac := by
  unfold Protection.unprotect at h
  cases p with
  | gcm cipher iv =>
    simp only [Gcm.decrypt] at h
    grind
  | cbc keys macKey =>
    simp only at h
    grind

/-- A received record is opened under the next sequence number if the read keys are in use. A record
that does not open ends the session. -/
theorem contentOf_ends (record : Record) (s : Session (Recorded τ) ρ) :
    Ends (contentOf record) s
      (fun content s' => ∃ sequence,
        s' = s.takingIn s.transport.inner s.transport.received s.connection.reader sequence ∧
        match s.connection.readProtection with
        | none => content = record.fragment ∧ sequence = s.connection.serverSequence
        | some p =>
          p.unprotect ⟨s.connection.serverSequence, record.contentType, record.version⟩
            record.fragment s.config.verifyMac = .ok content ∧
          sequence.toNat = s.connection.serverSequence.toNat + 1)
      (fun e s' => s' = s ∧ isResumable e = false) := by
  apply Ends.bind_current
  cases h : s.connection.readProtection with
  | none => exact ends_pure ⟨_, rfl, rfl, rfl⟩
  | some p =>
    refine Ends.bind_get (Ends.bind_check (fun content hcontent => ?_) fun e he => ?_)
    · refine Ends.bind_check (fun n hn => ?_) fun e he => ?_
      · obtain ⟨hroom, rfl⟩ := nextSequence_eq_ok hn
        refine Ends.bind_update (ends_pure ⟨_, rfl, hcontent, ?_⟩)
        rw [UInt64.toNat_add]
        exact Nat.mod_eq_of_lt hroom
      · obtain ⟨-, rfl⟩ := nextSequence_eq_error he
        exact ⟨rfl, rfl⟩
    · rw [unprotect_eq_error he]
      exact ⟨rfl, rfl⟩

variable [Transport τ]

/-- A record that is received as it is on the wire was in front of what is left; if there is none,
everything that arrived is in the reader. -/
theorem receiveWire_ends (s : Session (Recorded τ) ρ) :
    Ends receiveWire s
      (fun record s' => record.Acceptable ∧ ∃ inner arrived reader,
        s' = s.takingIn inner (s.transport.received ++ arrived) reader
          s.connection.serverSequence ∧
        s.connection.reader.buffer ++ arrived = record.toBytes ++ reader.buffer)
      (fun _ s' => ∃ inner arrived reader,
        s' = s.takingIn inner (s.transport.received ++ arrived) reader
          s.connection.serverSequence ∧
        s.connection.reader.buffer ++ arrived = reader.buffer) := by
  refine Ends.bind_link (fun id _ => ?_) fun _ => ?_
  · have hconserves := s.connection.reader.read_conserves id s.config.pollLimit s.transport
    unfold Ends
    rcases hread : s.connection.reader.read id s.config.pollLimit s.transport with
      ⟨result, reader, inner, sent, received⟩
    rw [hread] at hconserves
    obtain ⟨arrived, hreceived, hsent, hrecords⟩ := hconserves
    simp only at hreceived hsent hrecords
    subst hreceived hsent
    simp only [hread]
    cases result with
    | ok record => exact ⟨hrecords.1, inner, arrived, reader, rfl, hrecords.2⟩
    -- What arrived in vain stays in the reader for the next time.
    | error e => exact ⟨inner, arrived, reader, rfl, hrecords⟩
  · refine ⟨s.transport.inner, [], s.connection.reader, ?_, List.append_nil _⟩
    rw [List.append_nil]
    rfl

/-- A record is received with the content that it opens to. If receiving stops and may go on, no
record was taken. -/
theorem receive_ends (s : Session (Recorded τ) ρ) :
    Ends receive s
      (fun r s' => ∃ record content inner received reader sequence,
        s' = s.takingIn inner received reader sequence ∧ r = { record with fragment := content } ∧
        record.Acceptable ∧ content.length ≤ Record.maxPlaintext ∧
        Intake s s' [(record, content)])
      (fun e s' => ∃ inner received reader sequence,
        s' = s.takingIn inner received reader sequence ∧
        (isResumable e = true → Intake s s' [])) := by
  refine Ends.bind_mono (receiveWire_ends s) ?_ ?_
  · intro e _ h
    obtain ⟨inner, arrived, reader, rfl, harrived⟩ := h
    exact ⟨inner, _, reader, _, rfl, fun _ => intake_nil s inner harrived⟩
  · intro record _ h
    obtain ⟨hacceptable, inner, arrived, reader, rfl, harrived⟩ := h
    refine Ends.bind_mono (contentOf_ends record _) ?_ ?_
    · intro e _ h
      obtain ⟨rfl, he⟩ := h
      exact ⟨inner, _, reader, _, rfl, fun hresumable => by simp [he] at hresumable⟩
    · intro content _ h
      obtain ⟨sequence, rfl, hopened⟩ := h
      split
      · exact ends_fail ⟨inner, _, reader, sequence, rfl, by simp [isResumable]⟩
      · rename_i hshort
        exact ends_pure ⟨record, content, inner, _, reader, sequence, rfl, rfl, hacceptable,
          Nat.not_lt.1 hshort, intake_singleton s inner hacceptable harrived hopened⟩

end Session
end TlsClient
