import TlsClient.Proofs.Record.Contents

namespace TlsClient

open Network

namespace RecordReader

variable {r r' : RecordReader} {record : Record} {e : Error}

def nextRecord (r : RecordReader) : Except Error (Option Record) × RecordReader :=
  match r.next? with
  | .ok (some (record, r')) => (.ok (some record), r')
  | .ok none => (.ok none, r)
  | .error e => (.error e, r)

theorem nextRecord_eq_some_iff :
    r.nextRecord = (.ok (some record), r') ↔ r.next? = .ok (some (record, r')) := by
  rw [nextRecord]
  rcases r.next? with e | _ | ⟨record', r''⟩ <;> simp

theorem nextRecord_eq_none_iff : r.nextRecord.1 = .ok none ↔ r.next? = .ok none := by
  rw [nextRecord]
  rcases r.next? with e | _ | ⟨record', r''⟩ <;> simp

theorem nextRecord_eq_error_iff : r.nextRecord.1 = .error e ↔ r.next? = .error e := by
  rw [nextRecord]
  rcases r.next? with e' | _ | ⟨record', r''⟩ <;> simp

/-- A record is handed out if the parser finds one at the front and its type is known. -/
theorem next?_eq_some_iff {rest : Bytes} :
    r.next? = .ok (some (record, ⟨rest⟩)) ↔
      Record.parse r.buffer = .ok (record, rest) ∧ record.contentType.IsKnown := by
  rw [Record.parse_eq_ok_iff]
  constructor
  · intro h
    obtain ⟨hacceptable, hbuffer⟩ := next?_eq_some h
    exact ⟨⟨hacceptable.isKnown.canonical, hacceptable.version, hacceptable.length_le, hbuffer⟩,
      hacceptable.isKnown⟩
  · obtain ⟨buffer⟩ := r
    rintro ⟨⟨-, hversion, hlength, rfl⟩, hknown⟩
    exact next?_of_complete ⟨hknown, hversion, hlength⟩ rest

/-- Where a reader waits, the parser finds too few bytes. -/
theorem parse_of_next?_eq_none (h : r.next? = .ok none) :
    Record.parse r.buffer = .error (.recoverable .eof) := by
  rcases next?_eq_none_iff.1 h with hshort | ⟨header, rest, hp, hfault, hmissing⟩
  · rw [Record.parse]
    simp only [bind, StateT.bind, Except.bind, RecordHeader.parse_of_short hshort]
  · obtain ⟨-, hlength⟩ := RecordHeader.fault?_eq_none_iff.1 hfault
    exact Record.parse_of_incomplete hp hlength hmissing

/-- A reader refuses the lengths that the parser refuses. -/
theorem next?_eq_tooLong_iff {n limit : Nat} :
    r.next? = .error (.tooLong n limit) ↔
      (∃ header rest, RecordHeader.parse r.buffer = .ok (header, rest) ∧
        header.contentType.IsKnown ∧ header.length = n ∧ limit = Record.maxCiphertext) ∧
      Record.parse r.buffer = .error (.fatal .tooLarge) := by
  simp only [next?_eq_error_iff, RecordHeader.fault?_eq_tooLong_iff]
  constructor
  · rintro ⟨header, rest, hp, hknown, hlength, hn, hlimit⟩
    exact ⟨⟨header, rest, hp, hknown, hn, hlimit⟩, (Record.parse_eq_tooLarge_iff hp).2 hlength⟩
  · rintro ⟨⟨header, rest, hp, hknown, hn, hlimit⟩, hparse⟩
    exact ⟨header, rest, hp, hknown, (Record.parse_eq_tooLarge_iff hp).1 hparse, hn, hlimit⟩

/-- Without a record, nothing is taken. -/
theorem nextRecord_of_no_record (h : ∀ record, r.nextRecord.1 ≠ .ok (some record)) :
    r.nextRecord.2 = r := by
  rw [nextRecord] at h ⊢
  rcases hnext : r.next? with e | _ | ⟨record, r'⟩
  · rfl
  · rfl
  · rw [hnext] at h
    exact absurd rfl (h record)

/-- A reader waits by asking for a record time after time, and adds what has arrived to what it holds
after the answer. -/
theorem read_eq {τ : Type} [Transport τ] (id : LinkId) (polls : Nat) (r : RecordReader) (t : τ) :
    r.read id polls t =
      match r.nextRecord, polls with
      | (.ok (some record), r), _ => (.ok record, r, t)
      | (.error e, r), _ => (.error e, r, t)
      | (.ok none, r), 0 => (.error .timeout, r, t)
      | (.ok none, r), polls + 1 =>
        match Transport.recv t id receiveLimit with
        | (.error e, t) => (.error (.transport e), r, t)
        | (.ok [], t) =>
          if Transport.isClosed t id then (.error .connectionClosed, r, t)
          else read id polls r (Transport.poll t)
        | (.ok bs, t) => read id polls (r.append bs) t := by
  rw [nextRecord]
  cases polls <;> rw [read] <;> rcases r.next? with e | _ | ⟨record, r'⟩ <;> rfl

/-- With no attempt left a reader asks once, and without a record it is as it was. -/
theorem eq_of_read_error {τ : Type} [Transport τ] {id : LinkId} {t t' : τ}
    (h : r.read id 0 t = (.error e, r', t')) : r' = r := by
  rw [read_eq] at h
  have hkept := nextRecord_of_no_record (r := r)
  -- The answer that is a record does not end in an error.
  rcases hnext : r.nextRecord with ⟨fault | _ | record, left⟩ <;> rw [hnext] at h hkept <;> cases h
  · exact hkept fun record => nofun
  · exact hkept fun record => nofun

/-- A reader hands out what the parser reads if the type is one of the four, and keeps what follows. It
waits in fewer than five bytes, and behind a header with one of the four types and a length within the
limit until the fragment is there; the parser then wants more. It refuses any other type, and of the
four types the lengths that the parser refuses. Unless it hands out a record its buffer stays as it is,
in particular where a wait ends without one. Reading and writing a record are inverse to each other. -/
theorem readers_agree (r : RecordReader) :
    (∀ (record : Record) (rest : Bytes), r.nextRecord = (.ok (some record), ⟨rest⟩) ↔
      Record.parse r.buffer = .ok (record, rest) ∧ record.contentType.IsKnown) ∧
    (r.nextRecord.1 = .ok none ↔ r.buffer.length < 5 ∨
      ∃ header rest, RecordHeader.parse r.buffer = .ok (header, rest) ∧
        header.contentType.IsKnown ∧ header.length ≤ 18432 ∧ rest.length < header.length) ∧
    (r.nextRecord.1 = .ok none → Record.parse r.buffer = .error (.recoverable .eof)) ∧
    (∀ code, r.nextRecord.1 = .error (.invalidContentType code) ↔
      ∃ header rest, RecordHeader.parse r.buffer = .ok (header, rest) ∧
        header.contentType = .unknown code) ∧
    (∀ n limit, r.nextRecord.1 = .error (.tooLong n limit) ↔
      (∃ header rest, RecordHeader.parse r.buffer = .ok (header, rest) ∧
        header.contentType.IsKnown ∧ header.length = n ∧ limit = 18432) ∧
      Record.parse r.buffer = .error (.fatal .tooLarge)) ∧
    (∀ e, r.nextRecord.1 = .error e →
      (∃ code, e = .invalidContentType code) ∨ ∃ n, e = .tooLong n 18432) ∧
    ((∀ record, r.nextRecord.1 ≠ .ok (some record)) → r.nextRecord.2 = r) ∧
    (∀ {τ : Type} [Transport τ] (id : LinkId) (t t' : τ) (e : Error) (r' : RecordReader),
      r.read id 0 t = (.error e, r', t') → r' = r) ∧
    (∀ (input rest : Bytes) (record : Record), Record.parse input = .ok (record, rest) →
      record.toBytes ++ rest = input ∧ record.fragment.length ≤ 18432 ∧
        record.contentType.Canonical ∧ record.version.Canonical) ∧
    (∀ (record : Record) (rest : Bytes), record.fragment.length ≤ 18432 →
      record.contentType.Canonical → record.version.Canonical →
      Record.parse (record.toBytes ++ rest) = .ok (record, rest)) := by
  refine ⟨fun record rest => nextRecord_eq_some_iff.trans next?_eq_some_iff, ?_,
    fun h => parse_of_next?_eq_none (nextRecord_eq_none_iff.1 h), fun code => ?_,
    fun n limit => nextRecord_eq_error_iff.trans next?_eq_tooLong_iff,
    fun e h => next?_eq_error (nextRecord_eq_error_iff.1 h), nextRecord_of_no_record,
    fun id t t' e r' => eq_of_read_error, fun input rest record h => ?_,
    fun record rest hlength htype hversion => ?_⟩
  · rw [nextRecord_eq_none_iff, next?_eq_none_iff]
    simp only [RecordHeader.fault?_eq_none_iff, and_assoc]
    rfl
  · simp only [nextRecord_eq_error_iff, next?_eq_error_iff, RecordHeader.fault?_eq_invalid_iff]
  · obtain ⟨htype, hversion, hlength, hinput⟩ := Record.parse_eq_ok_iff.1 h
    exact ⟨hinput.symm, hlength, htype, hversion⟩
  · exact Record.parse_eq_ok_iff.2 ⟨htype, hversion, hlength, rfl⟩

/-- One complete alert with a byte behind it, and headers alone: of the longest fragment that is waited
for, of one byte more, and of that under a type that is not assigned. -/
theorem readers_at_limit :
    nextRecord ⟨[0x15, 3, 3, 0, 2, 1, 0, 0x16]⟩ = (.ok (some ⟨.alert, .tls12, [1, 0]⟩), ⟨[0x16]⟩) ∧
    nextRecord ⟨[0x16, 3, 3, 0x48, 0x00]⟩ = (.ok none, ⟨[0x16, 3, 3, 0x48, 0x00]⟩) ∧
    Record.parse [0x16, 3, 3, 0x48, 0x00] = .error (.recoverable .eof) ∧
    (nextRecord ⟨[0x16, 3, 3, 0x48, 0x01]⟩).1 = .error (.tooLong 18433 18432) ∧
    (nextRecord ⟨[0x63, 3, 3, 0x48, 0x01]⟩).1 = .error (.invalidContentType 0x63) ∧
    Record.parse (Record.toBytes ⟨.alert, .tls12, [1, 0]⟩ ++ [0x16]) =
      .ok (⟨.alert, .tls12, [1, 0]⟩, [0x16]) := by
  obtain ⟨hsome, -, -, -, -, -, -, -, -, hread⟩ := readers_agree ⟨[0x15, 3, 3, 0, 2, 1, 0, 0x16]⟩
  obtain ⟨-, hwaits, heof, -, -, -, hkept, -⟩ := readers_agree ⟨[0x16, 3, 3, 0x48, 0x00]⟩
  obtain ⟨-, -, -, -, hlong, -⟩ := readers_agree ⟨[0x16, 3, 3, 0x48, 0x01]⟩
  obtain ⟨-, -, -, hinvalid, -⟩ := readers_agree ⟨[0x63, 3, 3, 0x48, 0x01]⟩
  have hnone := hwaits.2 (.inr ⟨⟨.handshake, .tls12, 18432⟩, [], rfl, nofun, by decide, by decide⟩)
  refine ⟨(hsome _ _).2 ⟨rfl, nofun⟩, Prod.ext hnone (hkept fun record => ?_), heof hnone,
    (hlong _ _).2 ⟨⟨⟨.handshake, .tls12, 18433⟩, [], rfl, nofun, rfl, rfl⟩, rfl⟩,
    (hinvalid _).2 ⟨⟨.unknown 0x63, .tls12, 18433⟩, [], rfl, rfl⟩,
    hread _ _ (by decide) (by decide) (by decide)⟩
  rw [hnone]
  exact nofun

end RecordReader
end TlsClient
