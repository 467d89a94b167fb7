import TlsClient.Proofs.Record.Delivery

namespace TlsClient

/-- What a header is refused for. The type is judged before the length. -/
def RecordHeader.fault? (h : RecordHeader) : Option Error :=
  match h.contentType with
  | .unknown code => some (.invalidContentType code)
  | _ =>
    if h.length > Record.maxCiphertext then some (.tooLong h.length Record.maxCiphertext) else none

/-- A header without a fault has a known type and a length within the limit. -/
theorem RecordHeader.fault?_eq_none_iff {h : RecordHeader} :
    h.fault? = none ↔ h.contentType.IsKnown ∧ h.length ≤ Record.maxCiphertext := by
  rw [fault?, ContentType.IsKnown]
  cases h.contentType <;> simp

theorem RecordHeader.fault?_eq_invalid_iff {h : RecordHeader} {code : UInt8} :
    h.fault? = some (.invalidContentType code) ↔ h.contentType = .unknown code := by
  rw [fault?]
  cases h.contentType with
  | unknown code' => simp
  | _ =>
    dsimp only
    split <;> simp

/-- The length is only objected to if the type is known. -/
theorem RecordHeader.fault?_eq_tooLong_iff {h : RecordHeader} {n limit : Nat} :
    h.fault? = some (.tooLong n limit) ↔
      h.contentType.IsKnown ∧ Record.maxCiphertext < h.length ∧ h.length = n ∧
        limit = Record.maxCiphertext := by
  rw [fault?, ContentType.IsKnown]
  cases h.contentType with
  | unknown code => simp
  | _ => simp [eq_comm]

/-- A header is refused for its type or for its length. -/
theorem RecordHeader.fault?_eq_some {h : RecordHeader} {e : Error} (hfault : h.fault? = some e) :
    (∃ code, e = .invalidContentType code) ∨ ∃ n, e = .tooLong n Record.maxCiphertext := by
  unfold fault? at hfault
  split at hfault
  · cases hfault
    exact .inl ⟨_, rfl⟩
  · split at hfault
    · cases hfault
      exact .inr ⟨_, rfl⟩
    · cases hfault

namespace Record

theorem length_lt_of_parse {bs rest : Bytes} {r : Record} (h : parse bs = .ok (r, rest)) :
    rest.length < bs.length := by
  obtain ⟨-, -, -, rfl⟩ := parse_eq_ok_iff.1 h
  have hheader : 0 < r.toBytes.length := by
    rw [toBytes_eq, List.length_append, RecordHeader.length_toBytes, RecordHeader.byteLength]
    omega
  rw [List.length_append]
  omega

def fragmentAfter (header : RecordHeader) : Wire.Parser Record := do
  let fragment ← Wire.Parser.take header.length
  return ⟨header.contentType, header.version, fragment⟩

theorem parse_of_header {bs rest : Bytes} {header : RecordHeader}
    (hp : RecordHeader.parse bs = .ok (header, rest)) (hlength : ¬ header.length > maxCiphertext) :
    parse bs = fragmentAfter header rest := by
  simp only [parse, bind, StateT.bind, Except.bind, hp, if_neg hlength]
  rfl

theorem parse_of_tooLarge {bs rest : Bytes} {header : RecordHeader}
    (hp : RecordHeader.parse bs = .ok (header, rest)) (hlength : header.length > maxCiphertext) :
    parse bs = .error (.fatal .tooLarge) := by
  simp only [parse, bind, StateT.bind, Except.bind, hp, if_pos hlength]
  rfl

/-- Within the limit a record that has not arrived yet is waited for. -/
theorem parse_of_incomplete {bs rest : Bytes} {header : RecordHeader}
    (hp : RecordHeader.parse bs = .ok (header, rest)) (hlength : header.length ≤ maxCiphertext)
    (hshort : rest.length < header.length) : parse bs = .error (.recoverable .eof) := by
  have htake : Wire.Parser.take header.length rest = .error (.recoverable .eof) := by
    rw [Wire.Parser.take, List.length_take, if_neg (by omega)]
  rw [parse_of_header hp (Nat.not_lt.2 hlength), fragmentAfter]
  simp only [bind, StateT.bind, Except.bind, htake]

/-- Within the limit a record that has arrived is always read. -/
theorem exists_parse_of_complete {bs rest : Bytes} {header : RecordHeader}
    (hp : RecordHeader.parse bs = .ok (header, rest)) (hlength : header.length ≤ maxCiphertext)
    (hlong : header.length ≤ rest.length) : ∃ record rest', parse bs = .ok (record, rest') := by
  have htake : (rest.take header.length).length = header.length := List.length_take_of_le hlong
  rw [parse_of_header hp (Nat.not_lt.2 hlength), fragmentAfter]
  refine ⟨⟨header.contentType, header.version, rest.take header.length⟩, rest.drop header.length, ?_⟩
  simp only [bind, StateT.bind, Except.bind, Wire.Parser.take, if_pos htake]
  rfl

/-- The parser refuses a length at the header. -/
theorem parse_eq_tooLarge_iff {bs rest : Bytes} {header : RecordHeader}
    (hp : RecordHeader.parse bs = .ok (header, rest)) :
    parse bs = .error (.fatal .tooLarge) ↔ maxCiphertext < header.length := by
  refine ⟨fun h => Nat.lt_of_not_le fun hlength => ?_, parse_of_tooLarge hp⟩
  by_cases hmissing : rest.length < header.length
  · cases h.symm.trans (parse_of_incomplete hp hlength hmissing)
  · obtain ⟨_, _, hparse⟩ := exists_parse_of_complete hp hlength (Nat.le_of_not_lt hmissing)
    cases h.symm.trans hparse

/-- The records of a byte string, up to the first header that is refused or the first record that is
not complete, and what the header is refused for. -/
def contents (bs : Bytes) : List Record × Option Error :=
  match RecordHeader.parse bs with
  | .error _ => ([], none)
  | .ok (header, _) =>
    match header.fault? with
    | some e => ([], some e)
    | none =>
      match _hparse : parse bs with
      | .error _ => ([], none)
      | .ok (r, rest) => (r :: (contents rest).1, (contents rest).2)
termination_by bs.length
decreasing_by all_goals exact length_lt_of_parse _hparse

end Record

namespace RecordReader

variable {r r' : RecordReader} {record : Record} {e : Error}

/-- A reader hands out what is parsed, once the header is not refused. -/
theorem next?_eq (r : RecordReader) :
    r.next? =
      match RecordHeader.parse r.buffer with
      | .error _ => .ok none
      | .ok (header, _) =>
        match header.fault? with
        | some e => .error e
        | none =>
          match Record.parse r.buffer with
          | .ok (record, rest) => .ok (some (record, ⟨rest⟩))
          | .error _ => .ok none := by
  rw [next?]
  cases hp : RecordHeader.parse r.buffer with
  | error e => rfl
  | ok parsed =>
    obtain ⟨header, rest⟩ := parsed
    dsimp only
    rw [RecordHeader.fault?]
    by_cases hlength : header.length > Record.maxCiphertext
    · simp only [if_pos hlength]
      cases header.contentType <;> rfl
    · -- The fragment is the one thing that may be missing.
      rw [Record.parse_of_header hp hlength]
      simp only [if_neg hlength, Record.fragmentAfter, bind, StateT.bind, Except.bind]
      rcases Wire.Parser.take header.length rest with e | ⟨fragment, left⟩ <;>
        cases header.contentType <;> rfl

/-- An error is the fault of the header. -/
theorem next?_eq_error_iff :
    r.next? = .error e ↔ ∃ header rest, RecordHeader.parse r.buffer = .ok (header, rest) ∧
      header.fault? = some e := by
  rw [next?_eq]
  rcases RecordHeader.parse r.buffer with failure | ⟨header, rest⟩
  · simp
  · rcases hfault : header.fault? with _ | e'
    · cases Record.parse r.buffer <;> simp [hfault]
    · simp [hfault]

/-- Only a type or a length is objected to. -/
theorem next?_eq_error (h : r.next? = .error e) :
    (∃ code, e = .invalidContentType code) ∨ ∃ n, e = .tooLong n Record.maxCiphertext := by
  obtain ⟨header, rest, -, hfault⟩ := next?_eq_error_iff.1 h
  exact RecordHeader.fault?_eq_some hfault

/-- A reader waits for the header, and then for the fragment unless the header is refused. -/
theorem next?_eq_none_iff :
    r.next? = .ok none ↔ r.buffer.length < RecordHeader.byteLength ∨
      ∃ header rest, RecordHeader.parse r.buffer = .ok (header, rest) ∧ header.fault? = none ∧
        rest.length < header.length := by
  rw [next?_eq]
  by_cases hshort : r.buffer.length < RecordHeader.byteLength
  · rw [RecordHeader.parse_of_short hshort]
    simp only [hshort, true_or]
  · obtain ⟨header, rest, hp, -⟩ := RecordHeader.exists_header (Nat.not_lt.1 hshort)
    rw [hp]
    dsimp only
    constructor
    · intro h
      rcases hfault : header.fault? with _ | e
      · -- If the fragment were there, then a record would be handed out.
        refine .inr ⟨header, rest, rfl, hfault, Nat.lt_of_not_le fun hlong => ?_⟩
        obtain ⟨-, hlength⟩ := RecordHeader.fault?_eq_none_iff.1 hfault
        obtain ⟨record, rest', hparse⟩ := Record.exists_parse_of_complete hp hlength hlong
        rw [hfault, hparse] at h
        cases h
      · rw [hfault] at h
        cases h
    · rintro (h | ⟨_, _, ⟨⟩, hfault, hmissing⟩)
      · exact absurd h hshort
      · obtain ⟨-, hlength⟩ := RecordHeader.fault?_eq_none_iff.1 hfault
        rw [hfault, Record.parse_of_incomplete hp hlength hmissing]

/-- The records of a byte string are what a reader hands out one after the other. -/
theorem contents_eq (r : RecordReader) :
    Record.contents r.buffer =
      match r.next? with
      | .error e => ([], some e)
      | .ok none => ([], none)
      | .ok (some (record, r')) =>
        (record :: (Record.contents r'.buffer).1, (Record.contents r'.buffer).2) := by
  rw [Record.contents, next?_eq]
  rcases RecordHeader.parse r.buffer with e | ⟨header, rest⟩
  · rfl
  · dsimp only
    rcases header.fault? with _ | e
    · dsimp only
      split <;> rename_i hparse <;> rw [hparse]
    · rfl

/-- Bytes that arrive later do not change a record that is complete. -/
theorem next?_append_of_some (h : r.next? = .ok (some (record, r'))) (more : Bytes) :
    (r.append more).next? = .ok (some (record, r'.append more)) := by
  obtain ⟨hacceptable, hbuffer⟩ := next?_eq_some h
  rw [append, hbuffer, List.append_assoc]
  exact next?_of_complete hacceptable (r'.buffer ++ more)

/-- A header that is refused stays refused. -/
theorem next?_append_of_error (h : r.next? = .error e) (more : Bytes) :
    (r.append more).next? = .error e := by
  obtain ⟨header, rest, hp, hfault⟩ := next?_eq_error_iff.1 h
  -- It is the same header, whatever has come behind it.
  exact next?_eq_error_iff.2 ⟨header, rest ++ more, RecordHeader.parse_append more hp, hfault⟩

/-- The record that is handed out is the next one, whatever follows what has arrived. -/
theorem contents_of_some (h : r.next? = .ok (some (record, r'))) (more : Bytes) :
    Record.contents (r.buffer ++ more) =
      (record :: (Record.contents (r'.buffer ++ more)).1,
        (Record.contents (r'.buffer ++ more)).2) := by
  have hnext := contents_eq (r.append more)
  rw [next?_append_of_some h more] at hnext
  exact hnext

/-- Bytes that arrive later do not change the verdict on a header. -/
theorem contents_of_error (h : r.next? = .error e) (more : Bytes) :
    Record.contents (r.buffer ++ more) = ([], some e) := by
  have hnext := contents_eq (r.append more)
  rw [next?_append_of_error h more] at hnext
  exact hnext

theorem contents_of_none (h : r.next? = .ok none) : Record.contents r.buffer = ([], none) := by
  rw [contents_eq, h]

end RecordReader
end TlsClient
