import TlsClient.Proofs.Record.Chunking
import TlsClient.Proofs.Session.Inflow

/-!
What a stream has to say to an established session. `news` reads it off the records of the stream
alone: the data that they bring, and the error that ends them. Receiving tells the news in their order
(`receiveData_tells`): a call that brings data has told the first of it, a call that is given up has
told none, and what it has not told is still to come.
-/

namespace TlsClient

/-- What a stream has to say: data, piece by piece, and then an error, if it ends with one. -/
structure News where
  data : List Bytes
  fault : Option Error

def News.cons : Except Error (Option Bytes) → News → News
  | .error e, _ => ⟨[], some e⟩
  | .ok none, rest => rest
  | .ok (some data), rest => ⟨data :: rest.data, rest.fault⟩

/-- What an established session makes of a record's content. An empty record, a request to start over
and the server's farewell bring nothing. -/
def hearing (contentType : ContentType) (content : Bytes) : Except Error (Option Bytes) :=
  match contentType with
  | .applicationData => .ok (if content = [] then none else some content)
  | .alert =>
    match Alert.parse.parse content with
    | .error e => .error e
    | .ok alert => if alert.isCloseNotify then .ok none else .error (.alertReceived alert)
  | .handshake =>
    match HandshakeHeader.parse.parse content with
    | .error e => .error e
    | .ok header =>
      if header.kind = .helloRequest then .ok none
      else .error (.unexpectedHandshake header.kind .established)
  | other => .error (.unexpectedContentType other)

def Protection.content (p : Protection) (checkMac : Bool) (n : UInt64) (r : Record) :
    Except Error Bytes :=
  match p.unprotect ⟨n, r.contentType, r.version⟩ r.fragment checkMac with
  | .error e => .error e
  | .ok content =>
    match Session.nextSequence n with
    | .error e => .error e
    | .ok _ =>
      if content.length > Record.maxPlaintext then
        .error (.tooLong content.length Record.maxPlaintext)
      else .ok content

def news (p : Protection) (checkMac : Bool) : UInt64 → List Record → Option Error → News
  | _, [], fault => ⟨[], fault⟩
  | n, r :: records, fault =>
    News.cons (p.content checkMac n r >>= hearing r.contentType)
      (news p checkMac (n + 1) records fault)

namespace Session

open Network

/-- Errors about the time, the transport or the end leave a session that can go on. -/
theorem isResumable_of_isEnding {e : Error} (h : RecordReader.IsEnding e) :
    isResumable (.failed e) = true := by
  rcases h with rfl | rfl | ⟨fault, rfl⟩ <;> rfl

/-- An error about a header does not. -/
theorem isResumable_of_next? {r : RecordReader} {e : Error} (h : r.next? = .error e) :
    isResumable (.failed e) = false := by
  rcases RecordReader.next?_eq_error h with ⟨code, rfl⟩ | ⟨n, rfl⟩ <;> rfl

/-- An error about a fragment does not. -/
theorem isResumable_of_content {p : Protection} {checkMac : Bool} {n : UInt64} {r : Record}
    {e : Error} (h : p.content checkMac n r = .error e) : isResumable (.failed e) = false := by
  unfold Protection.content at h
  split at h
  · rename_i hopen
    cases h
    rw [unprotect_eq_error hopen]
    rfl
  · split at h
    · rename_i hnext
      cases h
      rw [(nextSequence_eq_error hnext).2]
      rfl
    · split at h <;> cases h
      rfl

/-- An objection to a content, a closing alert apart, does not. -/
theorem isResumable_of_hearing {contentType : ContentType} {content : Bytes} {e : Error}
    (h : hearing contentType content = .error e) : isResumable (.failed e) = false := by
  unfold hearing at h
  split at h
  · cases h
  · split at h
    · rename_i hparse
      cases h
      exact isResumable_of_parse hparse
    · split at h <;> cases h
      rfl
  · split at h
    · rename_i hparse
      cases h
      exact isResumable_of_parse hparse
    · split at h <;> cases h
      rfl
  · cases h
    rfl

theorem ne_nil_of_hearing {contentType : ContentType} {content data : Bytes}
    (h : hearing contentType content = .ok (some data)) : data ≠ [] := by
  unfold hearing at h
  split at h
  · split at h <;> cases h
    assumption
  · split at h
    · cases h
    · split at h <;> cases h
  · split at h
    · cases h
    · split at h <;> cases h
  · cases h

variable {τ ρ : Type} {p : Protection} {s t u : Session (Recorded τ) ρ}

/-- What is still to come if `more` arrives: the news of the records that were not opened yet. -/
def toCome (p : Protection) (s : Session (Recorded τ) ρ) (more : Bytes) : News :=
  news p s.config.verifyMac s.connection.serverSequence
    (Record.contents (s.connection.reader.buffer ++ more)).1
    (Record.contents (s.connection.reader.buffer ++ more)).2

/-- An established session that has what it takes to receive. -/
structure Listening (p : Protection) (s : Session (Recorded τ) ρ) : Prop where
  state : s.connection.state = .established
  link : s.connection.link.isSome = true
  readProtection : s.connection.readProtection = some p

def Moves (s t : Session (Recorded τ) ρ) : Prop :=
  ∃ inner received lastAlert reader sequence,
    t = { s.takingIn inner received reader sequence with lastAlert }

theorem Moves.trans (h : Moves s t) (h' : Moves t u) : Moves s u := by
  obtain ⟨_, _, _, _, _, rfl⟩ := h
  obtain ⟨inner, received, lastAlert, reader, sequence, rfl⟩ := h'
  exact ⟨inner, received, lastAlert, reader, sequence, rfl⟩

theorem Moves.pending (h : Moves s t) : t.connection.pending = s.connection.pending := by
  obtain ⟨_, _, _, _, _, rfl⟩ := h
  rfl

/-- A session that only reads goes on listening. -/
theorem Listening.of_moves (h : Listening p s) (ht : Moves s t) : Listening p t := by
  obtain ⟨_, _, _, _, _, rfl⟩ := ht
  exact ⟨h.state, h.link, h.readProtection⟩

/-- From `s` to `t`, while `arrived` came in, the records of `xs` were taken off the wire, and none of
them brings anything. -/
structure Passes (p : Protection) (s t : Session (Recorded τ) ρ) (arrived : Bytes)
    (xs : List (Record × Bytes)) : Prop where
  moves : Moves s t
  received : t.transport.received = s.transport.received ++ arrived
  intake : Intake s t xs
  silent : ∀ x ∈ xs, hearing x.1.contentType x.2 = .ok none
  toCome : ∀ more, toCome p s (arrived ++ more) = toCome p t more

theorem Passes.refl (p : Protection) (s : Session (Recorded τ) ρ) : Passes p s s [] [] where
  moves := ⟨_, _, _, _, _, rfl⟩
  received := (List.append_nil _).symm
  intake := .refl s
  silent x hx := by cases hx
  toCome _ := rfl

/-- Records that bring nothing can be passed one after the other. -/
theorem Passes.trans {a b : Bytes} {xs ys : List (Record × Bytes)} (h : Passes p s t a xs)
    (h' : Passes p t u b ys) : Passes p s u (a ++ b) (xs ++ ys) where
  moves := h.moves.trans h'.moves
  received := by rw [h'.received, h.received, List.append_assoc]
  intake := h.intake.trans h'.intake
  silent := List.forall_mem_append.2 ⟨h.silent, h'.silent⟩
  toCome more := by rw [List.append_assoc, h.toCome, h'.toCome]

/-- What was received is the records that were passed over and what is in the reader. -/
theorem Passes.buffered {arrived : Bytes} {xs : List (Record × Bytes)} (h : Passes p s t arrived xs) :
    s.connection.reader.buffer ++ arrived =
      wire (xs.map Prod.fst) ++ t.connection.reader.buffer := by
  obtain ⟨arrived', hreceived, hbuffer⟩ := h.intake.arrival
  obtain rfl := List.append_cancel_left (h.received.symm.trans hreceived)
  exact hbuffer

/-- How receiving for data may stop: it is given up with nothing told, or the news end with an
error. -/
inductive Interrupted (p : Protection) (s : Session (Recorded τ) ρ) : Stop → Session (Recorded τ) ρ → Prop
  | suspended {stop : Stop} {t : Session (Recorded τ) ρ} {arrived : Bytes}
    {xs : List (Record × Bytes)} (hstop : isResumable stop = true) (h : Passes p s t arrived xs)
    (hlast : stop = .unfinished ∨ t.connection.reader.next? = .ok none ∨
      stop = .failed .connectionClosed ∧
        ∃ before r content, xs = before ++ [(r, content)] ∧ r.contentType = .alert) :
    Interrupted p s stop t
  | failed {e : Error} {t : Session (Recorded τ) ρ} (arrived : Bytes)
    (he : isResumable (.failed e) = false)
    (hreceived : t.transport.received = s.transport.received ++ arrived)
    (hnews : ∀ more, toCome p s (arrived ++ more) = ⟨[], some e⟩) : Interrupted p s (.failed e) t

/-- What stops receiving stops it behind records that bring nothing as well. -/
theorem Interrupted.after {arrived : Bytes} {xs : List (Record × Bytes)} {stop : Stop}
    (h : Passes p s u arrived xs) (h' : Interrupted p u stop t) : Interrupted p s stop t := by
  cases h' with
  | @suspended _ _ arrived' ys hstop hpasses hlast =>
    refine .suspended hstop (h.trans hpasses) ?_
    rcases hlast with hlast | hlast | ⟨hclosed, before, r, content, rfl, htype⟩
    · exact .inl hlast
    · exact .inr (.inl hlast)
    · exact .inr (.inr ⟨hclosed, xs ++ before, r, content, (List.append_assoc ..).symm, htype⟩)
  | @failed _ _ arrived' he hreceived hnews =>
    refine .failed (arrived ++ arrived') he ?_ fun more => ?_
    · rw [hreceived, h.received, List.append_assoc]
    · rw [List.append_assoc, h.toCome, hnews]

/-- From `s` to `t`, while `arrived` came in, the first data of the news was told, and it is pending. -/
structure Told (p : Protection) (s t : Session (Recorded τ) ρ) (arrived data : Bytes) : Prop where
  moves : ∃ u, Moves s u ∧ t = { u with connection := { u.connection with pending := data } }
  received : t.transport.received = s.transport.received ++ arrived
  ne_nil : data ≠ []
  toCome : ∀ more, toCome p s (arrived ++ more) = News.cons (.ok (some data)) (toCome p t more)

/-- Data is told behind records that bring nothing as well. -/
theorem Told.after {a b data : Bytes} {xs : List (Record × Bytes)} (h : Passes p s u a xs)
    (h' : Told p u t b data) : Told p s t (a ++ b) data where
  moves := by
    obtain ⟨v, hv, ht⟩ := h'.moves
    exact ⟨v, h.moves.trans hv, ht⟩
  received := by rw [h'.received, h.received, List.append_assoc]
  ne_nil := h'.ne_nil
  toCome more := by rw [List.append_assoc, h.toCome, h'.toCome]

theorem Told.pending {arrived data : Bytes} (h : Told p s t arrived data) :
    t.connection.pending = data := by
  obtain ⟨u, -, rfl⟩ := h.moves
  rfl

/-- A session that was told data goes on listening. -/
theorem Told.listening {arrived data : Bytes} (ht : Told p s t arrived data) (hs : Listening p s) :
    Listening p t := by
  obtain ⟨u, hu, rfl⟩ := ht.moves
  have hlistening := hs.of_moves hu
  exact ⟨hlistening.state, hlistening.link, hlistening.readProtection⟩

/-- What arrives while no record is taken is only moved from what is to come into the reader. -/
theorem passes_nil {inner : τ} {arrived : Bytes} {reader : RecordReader}
    (h : s.connection.reader.buffer ++ arrived = reader.buffer) :
    Passes p s (s.takingIn inner (s.transport.received ++ arrived) reader
      s.connection.serverSequence) arrived [] where
  moves := ⟨_, _, _, _, _, rfl⟩
  received := rfl
  intake := intake_nil s inner h
  silent x hx := by cases hx
  toCome more := by
    have hbytes : s.connection.reader.buffer ++ (arrived ++ more) = reader.buffer ++ more := by
      rw [← List.append_assoc, h]
    rw [toCome, hbytes]
    rfl

/-- A record at the front of what is unread is what the session hears next. -/
theorem toCome_of_record {arrived : Bytes} {record : Record} {reader : RecordReader}
    (hacceptable : record.Acceptable)
    (h : s.connection.reader.buffer ++ arrived = record.toBytes ++ reader.buffer) (more : Bytes) :
    toCome p s (arrived ++ more) =
      News.cons (p.content s.config.verifyMac s.connection.serverSequence record >>=
          hearing record.contentType)
        (news p s.config.verifyMac (s.connection.serverSequence + 1)
          (Record.contents (reader.buffer ++ more)).1 (Record.contents (reader.buffer ++ more)).2) := by
  have hnext : RecordReader.next? ⟨s.connection.reader.buffer ++ arrived⟩ =
      .ok (some (record, reader)) := by
    rw [h]
    exact RecordReader.next?_of_complete hacceptable reader.buffer
  have hcontents := RecordReader.contents_of_some hnext more
  rw [toCome, ← List.append_assoc, hcontents]
  rfl

variable [Transport τ]

/-- Without a record there is a header that is refused, or nothing to make a record of. -/
theorem receiveWire_fails (h : Listening p s) :
    Ends receiveWire s (fun _ _ => True)
      (fun stop t => ∃ e, stop = .failed e ∧ (t.connection.reader.next? = .error e ∨
        t.connection.reader.next? = .ok none ∧ RecordReader.IsEnding e)) := by
  refine Ends.bind_link (fun id _ => ?_) fun hnone => ?_
  · unfold Ends
    rcases hread : s.connection.reader.read id s.config.pollLimit s.transport with
      ⟨record | e, reader, transport⟩
    · simp only [hread]
      exact ⟨_, rfl, RecordReader.next?_of_read_error hread⟩
    · simp only [hread]
  · have hlink := h.link
    rw [hnone] at hlink
    cases hlink

omit [Transport τ] in
/-- A record that does not open is refused with the error that the news end with. -/
theorem contentOf_fails (h : s.connection.readProtection = some p) (record : Record) :
    Ends (contentOf record) s (fun _ _ => True)
      (fun stop t => t = s ∧ ∃ e, stop = .failed e ∧
        p.content s.config.verifyMac s.connection.serverSequence record = .error e) := by
  unfold Protection.content
  apply Ends.bind_current
  rw [h]
  refine Ends.bind_get (Ends.bind_check (fun content hcontent => ?_) fun e he => ?_)
  · refine Ends.bind_check (fun n hn => ?_) fun e he => ?_
    · exact Ends.bind_update (ends_pure trivial)
    · rw [hcontent, he]
      exact ⟨rfl, e, rfl, rfl⟩
  · rw [he]
    exact ⟨rfl, e, rfl, rfl⟩

omit [Transport τ] in
/-- What opens is kept back only if it is too long: that the count of opened records goes on shows that
the number was not the last one. -/
theorem content_of_opened {record : Record} {content : Bytes} {n m : UInt64} {checkMac : Bool}
    (hopen : p.unprotect ⟨n, record.contentType, record.version⟩ record.fragment checkMac =
      .ok content) (hm : m.toNat = n.toNat + 1) :
    m = n + 1 ∧ p.content checkMac n record =
      if content.length > Record.maxPlaintext then
        .error (.tooLong content.length Record.maxPlaintext)
      else .ok content := by
  have hroom : n.toNat + 1 < UInt64.size := hm ▸ m.toNat_lt
  have hnext : nextSequence n = .ok (n + 1) := if_pos hroom
  refine ⟨?_, ?_⟩
  · apply UInt64.toNat.inj
    rw [hm, UInt64.toNat_add]
    exact (Nat.mod_eq_of_lt hroom).symm
  · rw [Protection.content, hopen]
    dsimp only
    rw [hnext]

/-- Receiving a record tells what comes next, and if there is none, nothing. -/
theorem receive_tells (h : Listening p s) :
    Ends receive s
      (fun r t => ∃ record arrived inner reader,
        t = s.takingIn inner (s.transport.received ++ arrived) reader
          (s.connection.serverSequence + 1) ∧
        r = { record with fragment := r.fragment } ∧ Intake s t [(record, r.fragment)] ∧
        ∀ more, toCome p s (arrived ++ more) =
          News.cons (hearing r.contentType r.fragment) (toCome p t more))
      (fun stop t => Interrupted p s stop t ∧ Moves s t) := by
  apply Ends.bind_mono ((receiveWire_ends s).and (receiveWire_fails h))
  · rintro stop _ ⟨⟨inner, arrived, reader, rfl, hbuffer⟩, e, rfl, he⟩
    refine ⟨?_, inner, _, s.lastAlert, reader, _, rfl⟩
    rcases he with he | ⟨hnone, he⟩
    · -- A header that is refused stays so, whatever arrives behind it.
      refine .failed arrived (isResumable_of_next? he) rfl fun more => ?_
      have hcontents := RecordReader.contents_of_error he more
      rw [(passes_nil hbuffer).toCome, toCome, hcontents]
      rfl
    · exact .suspended (isResumable_of_isEnding he) (passes_nil hbuffer) (.inr (.inl hnone))
  · rintro record _ ⟨⟨hacceptable, inner, arrived, reader, rfl, hbuffer⟩, -⟩
    have htold := toCome_of_record (p := p) hacceptable hbuffer
    have hmoves : Moves s (s.takingIn inner (s.transport.received ++ arrived) reader
        s.connection.serverSequence) := ⟨_, _, _, _, _, rfl⟩
    have hread := (h.of_moves hmoves).readProtection
    -- The record is the next one of the stream, so what it opens to is what is heard next.
    apply Ends.bind_mono ((contentOf_ends record _).and (contentOf_fails hread record))
    · rintro stop _ ⟨-, rfl, e, rfl, he⟩
      refine ⟨.failed arrived (isResumable_of_content he) rfl fun more => ?_, hmoves⟩
      have herror : p.content s.config.verifyMac s.connection.serverSequence record = .error e := he
      rw [htold, herror]
      rfl
    · rintro content _ ⟨⟨sequence, rfl, hopened⟩, -⟩
      rw [hread] at hopened
      have hopen : p.unprotect ⟨s.connection.serverSequence, record.contentType, record.version⟩
          record.fragment s.config.verifyMac = .ok content ∧
          sequence.toNat = s.connection.serverSequence.toNat + 1 := hopened
      have hintake : Intake s (s.takingIn inner (s.transport.received ++ arrived) reader sequence)
          [(record, content)] := by
        apply intake_singleton s inner hacceptable hbuffer
        rw [h.readProtection]
        exact hopen
      obtain ⟨rfl, hcontent⟩ := content_of_opened hopen.1 hopen.2
      split
      · rename_i hlong
        rw [if_pos hlong] at hcontent
        refine ends_fail ⟨.failed arrived rfl rfl fun more => ?_,
          inner, s.transport.received ++ arrived, s.lastAlert, reader,
          s.connection.serverSequence + 1, rfl⟩
        rw [htold, hcontent]
        rfl
      · rename_i hshort
        rw [if_neg hshort] at hcontent
        refine ends_pure ⟨record, arrived, inner, reader, rfl, rfl, hintake, fun more => ?_⟩
        rw [htold, hcontent]
        rfl

/-- What may follow when an established session has heard `r`: an error, data, one more record, or the
end of receiving with the farewell. -/
structure Continues (fuel : Nat) (r : Record) (u : Session (Recorded τ) ρ)
    (Q : Unit → Session (Recorded τ) ρ → Prop) (E : Stop → Session (Recorded τ) ρ → Prop) : Prop where
  fails : ∀ e lastAlert, hearing r.contentType r.fragment = .error e →
    E (.failed e) { u with lastAlert }
  brings : ∀ data, hearing r.contentType r.fragment = .ok (some data) →
    Q () { u with connection := { u.connection with pending := data } }
  skips : hearing r.contentType r.fragment = .ok none → Ends (receiveData fuel) u Q E
  closes : hearing r.contentType r.fragment = .ok none → r.contentType = .alert →
    ∀ lastAlert, E (.failed .connectionClosed) { u with lastAlert }

/-- Receiving for data goes on from a record as the session hears it. -/
theorem receiveData_continues {fuel : Nat} {Q : Unit → Session (Recorded τ) ρ → Prop}
    {E : Stop → Session (Recorded τ) ρ → Prop}
    (h : Ends receive s (fun r u => u.connection.state = .established ∧ Continues fuel r u Q E) E) :
    Ends (receiveData (fuel + 1)) s Q E := by
  apply Ends.bind h
  rintro r u ⟨hstate, hr⟩
  -- The cases are the types of records; in each of them the checks are those of `hearing`.
  split
  · rename_i hkind
    split
    · rename_i hempty
      apply hr.skips
      simp only [hearing, hkind, hempty, if_true]
    · rename_i hdata
      apply ends_update
      apply hr.brings
      simp only [hearing, hkind, if_neg hdata]
  · rename_i hkind
    refine Ends.bind_check (fun alert halert => Ends.bind_modify ?_) fun e he => ?_
    · split
      · rename_i hclose
        refine ends_fail (hr.closes ?_ hkind (some alert))
        simp only [hearing, hkind, halert, if_pos hclose]
      · rename_i hother
        refine ends_fail (hr.fails _ (some alert) ?_)
        simp only [hearing, hkind, halert, if_neg hother]
    · refine hr.fails e u.lastAlert ?_
      simp only [hearing, hkind, he]
  · rename_i hkind
    refine Ends.bind_check (fun header hheader => ?_) fun e he => ?_
    · split
      · rename_i hrequest
        apply hr.skips
        simp only [hearing, hkind, hheader, if_pos hrequest]
      · rename_i hother
        refine Ends.bind_current (ends_fail (hr.fails _ u.lastAlert ?_))
        simp only [hearing, hkind, hheader, if_neg hother, hstate]
    · refine hr.fails e u.lastAlert ?_
      simp only [hearing, hkind, he]
  · rename_i hdata halert hhandshake
    refine ends_fail (hr.fails _ u.lastAlert ?_)
    unfold hearing
    split
    · exact absurd ‹_› hdata
    · exact absurd ‹_› halert
    · exact absurd ‹_› hhandshake
    · rfl

/-- Receiving for data tells the first news that there are: it brings the first data, stops with the
error, or tells nothing. -/
theorem receiveData_tells (fuel : Nat) (h : Listening p s) :
    Ends (receiveData fuel) s (fun _ t => ∃ arrived data, Told p s t arrived data)
      (fun stop t => Interrupted p s stop t ∧ Moves s t) := by
  -- The induction is on the records, each of which is passed over but for the last.
  induction fuel generalizing s with
  | zero => exact ends_throw ⟨.suspended rfl (.refl p s) (.inl rfl), _, _, _, _, _, rfl⟩
  | succ fuel ih =>
    apply receiveData_continues
    apply (receive_tells h).mono ?_ fun _ _ hstopped => hstopped
    rintro r u ⟨record, arrived, inner, reader, hu, hr, hintake, htold⟩
    have hmoves (lastAlert : Option Alert) : Moves s { u with lastAlert } := by
      subst hu
      exact ⟨_, _, _, _, _, rfl⟩
    have hreceived : u.transport.received = s.transport.received ++ arrived := by rw [hu]; rfl
    have htype : record.contentType = r.contentType := by rw [hr]
    have hpasses (lastAlert : Option Alert) (hsilent : hearing r.contentType r.fragment = .ok none) :
        Passes p s { u with lastAlert } arrived [(record, r.fragment)] := by
      refine ⟨hmoves lastAlert, hreceived, ?_, fun x hx => ?_, fun more => ?_⟩
      · exact hintake.trans (Intake.of_same rfl rfl rfl rfl rfl)
      · rw [List.mem_singleton.1 hx]
        exact htype ▸ hsilent
      · rw [htold, hsilent]
        rfl
    refine ⟨(h.of_moves (hmoves u.lastAlert)).state, ?_, ?_, ?_, ?_⟩
    · intro e lastAlert he
      refine ⟨.failed arrived (isResumable_of_hearing he) hreceived fun more => ?_, hmoves lastAlert⟩
      rw [htold, he]
      rfl
    · intro data hdata
      refine ⟨arrived, data, ⟨u, hmoves u.lastAlert, rfl⟩, hreceived, ?_, fun more => ?_⟩
      · exact ne_nil_of_hearing hdata
      · rw [htold, hdata]
        rfl
    · intro hsilent
      have hpass := hpasses u.lastAlert hsilent
      apply (ih (h.of_moves (hmoves u.lastAlert))).mono
      · rintro _ t ⟨arrived', data, ht⟩
        exact ⟨arrived ++ arrived', data, .after hpass ht⟩
      · rintro stop t ⟨hstopped, ht⟩
        exact ⟨.after hpass hstopped, (hmoves u.lastAlert).trans ht⟩
    · -- The farewell is passed over as well, but receiving ends with it.
      intro hsilent hkind lastAlert
      exact ⟨.suspended rfl (hpasses lastAlert hsilent)
        (.inr (.inr ⟨rfl, [], record, r.fragment, rfl, htype.trans hkind⟩)), hmoves lastAlert⟩

end Session
end TlsClient
