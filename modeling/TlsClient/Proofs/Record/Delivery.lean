import TlsClient.Proofs.Record.Arrival

/-!
Records that a transport delivers. A transport that `Carries` the bytes of a client and what the
other end answers to them lets a reader wait for a record with success: whatever the pieces are that
the bytes arrive in, the record is handed out as soon as it is there (`read_delivers`).
-/

namespace TlsClient

open Network

theorem wire_cons (r : Record) (records : List Record) :
    wire (r :: records) = r.toBytes ++ wire records :=
  rfl

namespace RecordHeader

/-- A header is read off the front whatever follows it. -/
theorem parse_append {input rest : Bytes} {h : RecordHeader} (more : Bytes)
    (hp : parse input = .ok (h, rest)) : parse (input ++ more) = .ok (h, rest ++ more) := by
  obtain ⟨htype, hversion, hlength, rfl⟩ := parse_eq_ok_iff.1 hp
  exact parse_eq_ok_iff.2 ⟨htype, hversion, hlength, List.append_assoc _ _ _⟩

end RecordHeader

/-- The header of a record is read as it was written. -/
theorem Record.parse_header {r : Record} (hr : r.Acceptable) (rest : Bytes) :
    RecordHeader.parse (r.toBytes ++ rest) = .ok (r.header, r.fragment ++ rest) := by
  have hlength : r.fragment.length < 65536 := Nat.lt_of_le_of_lt hr.length_le (by decide)
  apply RecordHeader.parse_eq_ok_iff.2
  refine ⟨hr.isKnown.canonical, hr.version, hlength, ?_⟩
  rw [Record.toBytes_eq, List.append_assoc]

namespace RecordReader

/-- A record that is complete is handed out, and what follows it is left. -/
theorem next?_of_complete {r : Record} (hr : r.Acceptable) (rest : Bytes) :
    next? ⟨r.toBytes ++ rest⟩ = .ok (some (r, ⟨rest⟩)) := by
  have htake : Wire.Parser.take r.header.length (r.fragment ++ rest) = .ok (r.fragment, rest) :=
    Wire.Parser.take_eq_ok_iff.2 ⟨rfl, rfl⟩
  have hlength : ¬ r.header.length > Record.maxCiphertext := Nat.not_lt.2 hr.length_le
  unfold next?
  simp only [r.parse_header hr rest]
  split
  · rename_i code hunknown
    exact absurd hunknown (hr.isKnown code)
  · rw [if_neg hlength, htake]
    rfl

/-- A record of which something is missing is waited for. -/
theorem next?_of_partial {r : Record} (hr : r.Acceptable) {buffer missing : Bytes}
    (h : r.toBytes = buffer ++ missing) (hmissing : missing ≠ []) :
    next? ⟨buffer⟩ = .ok none := by
  have hwhole := r.parse_header hr []
  rw [List.append_nil, List.append_nil] at hwhole
  unfold next?
  cases hp : RecordHeader.parse buffer with
  | error e => rfl
  | ok parsed =>
    obtain ⟨header, rest⟩ := parsed
    -- The header that is there is the record's, and its fragment is not all there.
    have hsame := RecordHeader.parse_append missing hp
    rw [← h, hwhole] at hsame
    obtain ⟨rfl, hfragment⟩ := Prod.mk.inj (Except.ok.inj hsame)
    have hshort : Wire.Parser.take r.header.length rest = .error (.recoverable .eof) := by
      have hpos := List.length_pos_iff.2 hmissing
      have htotal := congrArg List.length hfragment
      rw [List.length_append] at htotal
      have hne : (rest.take r.header.length).length ≠ r.header.length := by
        rw [List.length_take]
        change min r.fragment.length _ ≠ r.fragment.length
        omega
      rw [Wire.Parser.take, if_neg hne]
    have hlength : ¬ r.header.length > Record.maxCiphertext := Nat.not_lt.2 hr.length_le
    dsimp only
    split
    · rename_i code hunknown
      exact absurd hunknown (hr.isKnown code)
    · rw [if_neg hlength, hshort]

end RecordReader

section
variable {τ : Type} [Transport τ]

def arrivals (id : LinkId) : (n : Nat) → τ → Bytes
  | 0, _ => []
  | n + 1, t =>
    match Transport.recv t id RecordReader.receiveLimit with
    | (.ok [], t) => arrivals id n (Transport.poll t)
    | (.ok bs, t) => bs ++ arrivals id n t
    | (.error _, _) => []

/-- A transport that accepts all that is sent over it and delivers what the other end answers. The
invariant `I` says of a state what the other end has heard and what was taken of its answer. Each of
its records is there after at most `polls` further attempts to receive, and it hangs up at the
earliest once all that it has sent was taken. -/
structure Carries (id : LinkId) (polls : Nat) (answer : Bytes → Bytes)
    (I : τ → (heard taken : Bytes) → Prop) : Prop where
  send : ∀ {t : τ} {heard taken : Bytes} (bs : Bytes), I t heard taken →
    ∃ t', Transport.send t id bs = (.ok bs.length, t') ∧ I t' (heard ++ bs) taken
  recv : ∀ {t : τ} {heard taken : Bytes}, I t heard taken →
    ∃ bs t', Transport.recv t id RecordReader.receiveLimit = (.ok bs, t') ∧
      I t' heard (taken ++ bs)
  poll : ∀ {t : τ} {heard taken : Bytes}, I t heard taken → I (Transport.poll t) heard taken
  taken : ∀ {t : τ} {heard taken : Bytes}, I t heard taken → taken <+: answer heard
  isOpen : ∀ {t : τ} {heard taken : Bytes}, I t heard taken → taken ≠ answer heard →
    Transport.isClosed t id = false
  prompt : ∀ {t : τ} {heard taken : Bytes} {records : List Record} {r : Record},
    I t heard taken → (∀ x ∈ records ++ [r], x.Acceptable) → wire records <+: taken →
    wire (records ++ [r]) <+: answer heard →
    ∃ n ≤ polls, wire (records ++ [r]) <+: taken ++ arrivals id n t

variable {id : LinkId} {polls : Nat} {answer : Bytes → Bytes} {I : τ → Bytes → Bytes → Prop}

namespace RecordReader

variable {before heard : Bytes} {r : Record} {reader : RecordReader} {t : τ}

/-- A record that is complete needs no attempt. -/
theorem read_of_complete (hr : r.Acceptable) (attempts : Nat)
    (hI : I t heard (before ++ reader.buffer)) (h : r.toBytes <+: reader.buffer) :
    ∃ rest t', reader.read id attempts t = (.ok r, ⟨rest⟩, t') ∧
      I t' heard (before ++ r.toBytes ++ rest) := by
  obtain ⟨rest, hrest⟩ := h
  have hnext : reader.next? = .ok (some (r, ⟨rest⟩)) := by
    have hcomplete := next?_of_complete hr rest
    rwa [hrest] at hcomplete
  refine ⟨rest, t, ?_, ?_⟩
  · cases attempts with
    | zero => rw [read, hnext]
    | succ attempts => rw [read, hnext]
  · rwa [List.append_assoc, hrest]

/-- As long as the next record of the answer is not complete, the reader holds a part of it. -/
theorem exists_missing (hc : Carries id polls answer I)
    (hanswer : before ++ r.toBytes <+: answer heard) (hI : I t heard (before ++ reader.buffer))
    (h : ¬ r.toBytes <+: reader.buffer) :
    ∃ missing, missing ≠ [] ∧ r.toBytes = reader.buffer ++ missing := by
  have hbefore : before ++ reader.buffer <+: before ++ r.toBytes := by
    rcases List.prefix_or_prefix_of_prefix (hc.taken hI) hanswer with hle | hge
    · exact hle
    · exact absurd ((List.prefix_append_right_inj before).1 hge) h
  obtain ⟨missing, hmissing⟩ := (List.prefix_append_right_inj before).1 hbefore
  refine ⟨missing, ?_, hmissing.symm⟩
  intro hnil
  rw [hnil, List.append_nil] at hmissing
  exact h (hmissing ▸ List.prefix_refl _)

/-- The next record of the answer is handed out if it arrives within the attempts that are left. -/
theorem read_of_arrivals (hc : Carries id polls answer I) (hr : r.Acceptable)
    (hanswer : before ++ r.toBytes <+: answer heard) (attempts : Nat)
    (hI : I t heard (before ++ reader.buffer)) {n : Nat} (hn : n ≤ attempts)
    (harrives : r.toBytes <+: reader.buffer ++ arrivals id n t) :
    ∃ rest t', reader.read id attempts t = (.ok r, ⟨rest⟩, t') ∧
      I t' heard (before ++ r.toBytes ++ rest) := by
  -- The induction is on the attempts; each one brings some of what is missing.
  induction attempts generalizing reader t n with
  | zero =>
    obtain rfl := Nat.le_zero.1 hn
    rw [arrivals, List.append_nil] at harrives
    exact read_of_complete hr 0 hI harrives
  | succ attempts ih =>
    by_cases hcomplete : r.toBytes <+: reader.buffer
    · exact read_of_complete hr (attempts + 1) hI hcomplete
    obtain ⟨missing, hmissing, hbytes⟩ := exists_missing hc hanswer hI hcomplete
    have hnext : reader.next? = .ok none := next?_of_partial hr hbytes hmissing
    obtain ⟨bs, t', hrecv, hI'⟩ := hc.recv hI
    cases n with
    | zero =>
      rw [arrivals, List.append_nil] at harrives
      exact absurd harrives hcomplete
    | succ n =>
      have hle : n ≤ attempts := Nat.le_of_succ_le_succ hn
      rw [arrivals, hrecv] at harrives
      rw [read, hnext]
      dsimp only
      rw [hrecv]
      cases bs with
      | nil =>
        rw [List.append_nil] at hI'
        have hmore : before ++ reader.buffer ≠ answer heard := by
          intro hall
          obtain ⟨rest, hrest⟩ := hanswer
          rw [← hall, hbytes] at hrest
          have hlength := congrArg List.length hrest
          have hpos := List.length_pos_iff.2 hmissing
          simp only [List.length_append] at hlength
          omega
        have hopen := hc.isOpen hI' hmore
        dsimp only
        rw [hopen]
        exact ih (hc.poll hI') hle harrives
      | cons b bs =>
        have harrives' : r.toBytes <+: (reader.append (b :: bs)).buffer ++ arrivals id n t' := by
          rw [append, List.append_assoc]
          exact harrives
        have hI'' : I t' heard (before ++ (reader.append (b :: bs)).buffer) := by
          rw [append, ← List.append_assoc]
          exact hI'
        exact ih hI'' hle harrives'

/-- Reading hands out the next record of the answer. -/
theorem read_delivers (hc : Carries id polls answer I) {records : List Record}
    (hall : ∀ x ∈ records ++ [r], x.Acceptable) (hanswer : wire (records ++ [r]) <+: answer heard)
    (hI : I t heard (wire records ++ reader.buffer)) :
    ∃ rest t', reader.read id polls t = (.ok r, ⟨rest⟩, t') ∧
      I t' heard (wire (records ++ [r]) ++ rest) := by
  have hr : r.Acceptable := hall r (List.mem_append_right _ (List.mem_singleton_self r))
  obtain ⟨n, hn, harrives⟩ := hc.prompt hI hall (List.prefix_append _ _) hanswer
  rw [wire_append, wire_singleton] at hanswer harrives ⊢
  rw [List.append_assoc] at harrives
  exact read_of_arrivals hc hr hanswer polls hI hn ((List.prefix_append_right_inj _).1 harrives)

end RecordReader

end

end TlsClient
