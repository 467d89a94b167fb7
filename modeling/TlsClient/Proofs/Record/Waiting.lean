import TlsClient.Network.Watched
import TlsClient.Proofs.Record.Chunking

/-!
What a reader does while it waits for a record. It asks its transport for bytes and lets it drive the
network, each at most as often as it was allowed to, and every byte that comes is in the record that it
hands out or in the reader afterwards. It gives up only after all its attempts, and it reports the end
of the connection only where nothing came and the transport says so; in both cases what has come so far
says nothing: there is no complete record at its front, and no header that is refused.
-/

namespace TlsClient

open Network

/-- The watching makes no difference to a transport. -/
theorem Network.Transport.Commutes.watched {τ : Type} [Transport τ] :
    Commutes (Watched.inner : Watched τ → τ) :=
  ⟨fun _ _ => rfl, fun _ _ _ => rfl, fun _ _ _ => rfl, fun _ _ => rfl, fun _ _ => rfl, fun _ => rfl⟩

/-- What holds of bytes that nothing can be said of yet: no record stands complete at the front of
them, whatever its type and version are, and a header that stands there is not refused. -/
structure Record.Undecided (bs : Bytes) : Prop where
  incomplete : ∀ (record : Record) (rest : Bytes), record.fragment.length < 65536 →
    bs ≠ record.toBytes ++ rest
  acceptable : ∀ (header : RecordHeader) (rest : Bytes),
    RecordHeader.parse bs = .ok (header, rest) →
      header.contentType.IsKnown ∧ header.length ≤ maxCiphertext

/-- The header of a record is read off its written form, the type and the version by their codes. -/
theorem Record.exists_header {record : Record} (hlength : record.fragment.length < 65536)
    (rest : Bytes) :
    ∃ header, RecordHeader.parse (record.toBytes ++ rest) = .ok (header, record.fragment ++ rest) ∧
      header.length = record.fragment.length := by
  refine ⟨⟨.ofCode record.contentType.code, .ofCode record.version.code, record.fragment.length⟩,
    RecordHeader.parse_eq_ok_iff.2 ⟨ContentType.canonical_ofCode _,
      ProtocolVersion.canonical_ofCode _, hlength, ?_⟩, rfl⟩
  simp [toBytes, RecordHeader.toBytes, ProtocolVersion.toBytes]

namespace RecordReader

variable {r r' : RecordReader}

/-- A reader that has no record yet cannot say anything about its bytes. -/
theorem undecided_of_next?_eq_none (h : r.next? = .ok none) : Record.Undecided r.buffer := by
  rcases next?_eq_none_iff.1 h with hshort | ⟨header, rest, hp, hfault, hmissing⟩
  · constructor
    · intro record rest _ hbytes
      rw [hbytes, List.length_append, Record.length_toBytes] at hshort
      omega
    · intro header rest hp
      rw [RecordHeader.parse_of_short hshort] at hp
      cases hp
  · constructor
    · intro record rest' hlength hbytes
      -- Its header would be the one that is there, and its fragment would be what is missing.
      obtain ⟨header', hp', hheader⟩ := Record.exists_header hlength rest'
      rw [← hbytes, hp] at hp'
      obtain ⟨rfl, rfl⟩ := Prod.mk.inj (Except.ok.inj hp')
      rw [List.length_append] at hmissing
      omega
    · intro header' rest' hp'
      obtain ⟨rfl, rfl⟩ := Prod.mk.inj (Except.ok.inj (hp.symm.trans hp'))
      exact RecordHeader.fault?_eq_none_iff.1 hfault

variable {τ : Type} [Transport τ] {id : LinkId}

inductive Seen (id : LinkId) : Except Error Bytes → τ → List Occurrence → Prop
  | failed (fault : TransportError) (u : τ) :
    Seen id (.error (.transport fault)) u [.receives id receiveLimit (.error fault)]
  | closed {u : τ} (h : Transport.isClosed u id = true) :
    Seen id (.error .connectionClosed) u [.receives id receiveLimit (.ok [])]
  | nothing (u : τ) : Seen id (.ok []) u [.receives id receiveLimit (.ok []), .polls]
  | something (b : UInt8) (bs : Bytes) (u : τ) :
    Seen id (.ok (b :: bs)) u [.receives id receiveLimit (.ok (b :: bs))]

/-- All that an attempt does with the transport is in the log. -/
theorem attempt_seen (id : LinkId) (t : Watched τ) :
    ∃ log, Seen id (attempt id t).1 (attempt id t).2.inner log ∧
      (attempt id t).2.log = t.log ++ log := by
  unfold attempt
  simp only [Transport.recv]
  rcases Transport.recv t.inner id receiveLimit with ⟨fault | (_ | ⟨b, bs⟩), u⟩
  · exact ⟨_, .failed fault u, rfl⟩
  · dsimp only
    split
    · rename_i hclosed
      exact ⟨_, .closed hclosed, rfl⟩
    · exact ⟨_, .nothing _, List.append_assoc _ _ _⟩
  · exact ⟨_, .something b bs u, rfl⟩

section
variable {result : Except Error Bytes} {bs : Bytes} {u : τ} {log : List Occurrence}

/-- An attempt is to ask for bytes, and to poll once if none have come. -/
theorem Seen.eq_receives_or_polls (h : Seen id result u log) :
    ∀ x ∈ log, x = .polls ∨ ∃ answer, x = .receives id receiveLimit answer := by
  cases h <;> simp

/-- An attempt asks for bytes once. -/
theorem Seen.countP_isReceive (h : Seen id result u log) : log.countP Occurrence.isReceive = 1 := by
  cases h <;> rfl

/-- An attempt polls at most once, and only if nothing has come. -/
theorem Seen.countP_isPoll_le (h : Seen id result u log) : log.countP Occurrence.isPoll ≤ 1 := by
  cases h <;> simp [Occurrence.isPoll]

/-- What the reader gets is what has come. -/
theorem Seen.bytes (h : Seen id (.ok bs) u log) : log.flatMap Occurrence.bytes = bs := by
  cases h with
  | nothing => rfl
  | something b bs => exact List.append_nil _

/-- Nothing comes with a failed attempt. -/
theorem Seen.bytes_of_error {e : Error} (h : Seen id (.error e) u log) :
    log.flatMap Occurrence.bytes = [] := by
  cases h <;> rfl

end

def taken : Except Error Record → Bytes
  | .ok record => record.toBytes
  | .error _ => []

/-- What is seen of a reader that comes to an answer with at most `polls` attempts, and how the answer
goes with it. -/
structure Waited (id : LinkId) (polls : Nat) (r : RecordReader) (answer : Except Error Record)
    (r' : RecordReader) (t' : τ) (log : List Occurrence) : Prop where
  only : ∀ x ∈ log, x = .polls ∨ ∃ answer, x = .receives id receiveLimit answer
  receives_le : log.countP Occurrence.isReceive ≤ polls
  polls_le : log.countP Occurrence.isPoll ≤ polls
  /-- No byte is lost, made up or handed out twice. -/
  conserved : r.buffer ++ log.flatMap Occurrence.bytes = taken answer ++ r'.buffer
  timeout : answer = .error .timeout →
    log.countP Occurrence.isReceive = polls ∧
      Record.Undecided (r.buffer ++ log.flatMap Occurrence.bytes)
  closed : answer = .error .connectionClosed →
    Record.Undecided (r.buffer ++ log.flatMap Occurrence.bytes) ∧
      log.getLast? = some (.receives id receiveLimit (.ok [])) ∧ Transport.isClosed t' id = true
  fault : ∀ fault, answer = .error (.transport fault) →
    log.getLast? = some (.receives id receiveLimit (.error fault))

namespace Waited

variable {polls : Nat} {t u t' : τ} {bs : Bytes} {answer : Except Error Record}
  {log log' : List Occurrence}

/-- An answer that nothing was asked for: it says nothing of the transport, and it is given for want of
time only if there was none. -/
theorem unseen (hbuffer : r.buffer = taken answer ++ r'.buffer)
    (hending : ∀ e, answer = .error e → IsEnding e →
      e = .timeout ∧ polls = 0 ∧ Record.Undecided r.buffer) :
    Waited id polls r answer r' t [] := by
  have hnothing : r.buffer ++ [].flatMap Occurrence.bytes = r.buffer := List.append_nil _
  constructor
  case only =>
    intro x hx
    cases hx
  case receives_le => exact Nat.zero_le _
  case polls_le => exact Nat.zero_le _
  case conserved => exact hnothing.trans hbuffer
  case timeout =>
    intro h
    obtain ⟨-, hpolls, hundecided⟩ := hending _ h (.inr (.inl rfl))
    rw [hnothing]
    exact ⟨hpolls.symm, hundecided⟩
  case closed =>
    intro h
    obtain ⟨hne, -⟩ := hending _ h (.inl rfl)
    cases hne
  case fault =>
    intro fault h
    obtain ⟨hne, -⟩ := hending _ h (.inr (.inr ⟨fault, rfl⟩))
    cases hne

theorem found {record : Record} (hnext : r.next? = .ok (some (record, r'))) :
    Waited id polls r (.ok record) r' t [] :=
  .unseen (next?_eq_some hnext).2 fun _ h => nomatch h

theorem refused {e : Error} (hnext : r.next? = .error e) : Waited id polls r (.error e) r t [] := by
  refine .unseen rfl ?_
  rintro _ ⟨⟩ hending
  -- The header is at fault here, and neither the transport nor the time.
  rcases next?_eq_error hnext with ⟨_, rfl⟩ | ⟨_, rfl⟩ <;> rcases hending with h | h | ⟨_, h⟩ <;>
    cases h

/-- A call gives up when no attempt is left, and keeps what it has. -/
theorem gaveUp (hnext : r.next? = .ok none) : Waited id 0 r (.error .timeout) r t [] := by
  refine .unseen rfl ?_
  rintro _ ⟨⟩ -
  exact ⟨rfl, rfl, undecided_of_next?_eq_none hnext⟩

theorem failed {e : Error} (hnext : r.next? = .ok none) (hseen : Seen id (.error e) u log) :
    Waited id (polls + 1) r (.error e) r u log where
  only := hseen.eq_receives_or_polls
  receives_le := by
    rw [hseen.countP_isReceive]
    exact Nat.le_add_left 1 polls
  polls_le := Nat.le_trans hseen.countP_isPoll_le (Nat.le_add_left 1 polls)
  conserved := by
    rw [hseen.bytes_of_error, List.append_nil]
    rfl
  timeout h := by
    cases h
    cases hseen
  closed h := by
    cases h
    rw [hseen.bytes_of_error, List.append_nil]
    cases hseen with
    | closed hclosed => exact ⟨undecided_of_next?_eq_none hnext, rfl, hclosed⟩
  fault _ h := by
    cases h
    cases hseen
    rfl

/-- An attempt goes in front of what is seen after it. -/
theorem next (hseen : Seen id (.ok bs) u log)
    (h : Waited id polls (r.append bs) answer r' t' log') :
    Waited id (polls + 1) r answer r' t' (log ++ log') := by
  have hbytes : r.buffer ++ (log ++ log').flatMap Occurrence.bytes =
      (r.append bs).buffer ++ log'.flatMap Occurrence.bytes := by
    rw [List.flatMap_append, hseen.bytes, append, List.append_assoc]
  have hreceives : (log ++ log').countP Occurrence.isReceive =
      log'.countP Occurrence.isReceive + 1 := by
    rw [List.countP_append, hseen.countP_isReceive, Nat.add_comm]
  have hlast {x : Occurrence} (hx : log'.getLast? = some x) : (log ++ log').getLast? = some x := by
    rw [List.getLast?_append, hx, Option.some_or]
  constructor
  case only =>
    intro x hx
    exact (List.mem_append.1 hx).elim (hseen.eq_receives_or_polls x) (h.only x)
  case receives_le =>
    rw [hreceives]
    exact Nat.succ_le_succ h.receives_le
  case polls_le =>
    rw [List.countP_append, Nat.add_comm]
    exact Nat.add_le_add h.polls_le hseen.countP_isPoll_le
  case conserved => exact hbytes.trans h.conserved
  case timeout =>
    intro htimeout
    obtain ⟨hcount, hundecided⟩ := h.timeout htimeout
    rw [hreceives, hbytes, hcount]
    exact ⟨rfl, hundecided⟩
  case closed =>
    intro hclosed
    obtain ⟨hundecided, hempty, hisClosed⟩ := h.closed hclosed
    rw [hbytes]
    exact ⟨hundecided, hlast hempty, hisClosed⟩
  case fault =>
    intro fault hfault
    exact hlast (h.fault fault hfault)

end Waited

/-- However a reader comes to its answer, it has waited for it. -/
theorem waited_of_run {polls : Nat} {t t' : Watched τ} {answer : Except Error Record}
    (hrun : Run id polls r t answer r' t') :
    ∃ log, t'.log = t.log ++ log ∧ Waited id polls r answer r' t'.inner log := by
  -- The induction is on the attempts, each of which is seen in front of the later ones.
  induction hrun with
  | found hnext => exact ⟨[], (List.append_nil _).symm, .found hnext⟩
  | refused hnext => exact ⟨[], (List.append_nil _).symm, .refused hnext⟩
  | timeout hnext => exact ⟨[], (List.append_nil _).symm, .gaveUp hnext⟩
  | @failed _ r t u e hnext hattempt =>
    obtain ⟨log, hseen, hlog⟩ := attempt_seen id t
    rw [hattempt] at hseen hlog
    exact ⟨log, hlog, .failed hnext hseen⟩
  | @next _ r _ t u t' bs _ hnext hattempt _ ih =>
    obtain ⟨log, hseen, hlog⟩ := attempt_seen id t
    rw [hattempt] at hseen hlog
    change u.log = t.log ++ log at hlog
    obtain ⟨log', hlog', hwaited⟩ := ih
    refine ⟨log ++ log', ?_, .next hseen hwaited⟩
    rw [hlog', hlog, List.append_assoc]

/-- One wait for a record, over any transport, from any reader and with any limit: the transport is
asked for bytes at most `polls` times and polled at most `polls` times, and nothing else is done with
it; what was in the reader and what has come are the record that is handed out, if one is, and what is
in the reader afterwards; and it times out, or reports that the connection is closed, only as `Waited`
says. Any error that is not about the transport or the time is the fault of a header. Watching the
transport changes nothing. -/
theorem read_waited (id : LinkId) (polls : Nat) (r : RecordReader) (t : τ) :
    ∃ answer r' t' log, read id polls r t = (answer, r', t') ∧
      read id polls r (⟨t, []⟩ : Watched τ) = (answer, r', ⟨t', log⟩) ∧
      Waited id polls r answer r' t' log ∧
      ∀ e, answer = .error e → IsEnding e ∨ ∃ header rest,
        RecordHeader.parse r'.buffer = .ok (header, rest) ∧ header.fault? = some e := by
  have hmap := read_map .watched id polls r (⟨t, []⟩ : Watched τ)
  obtain ⟨log, hlog, hwaited⟩ := waited_of_run (read_run id polls r (⟨t, []⟩ : Watched τ))
  rcases hread : read id polls r (⟨t, []⟩ : Watched τ) with ⟨answer, r', t'⟩
  rw [hread] at hmap hlog hwaited
  obtain rfl : t'.log = log := hlog
  refine ⟨answer, r', t'.inner, t'.log, hmap, rfl, hwaited, ?_⟩
  rintro e rfl
  rcases next?_of_read_error hmap with hnext | ⟨-, hending⟩
  · exact .inr (next?_eq_error_iff.1 hnext)
  · exact .inl hending

/-- Two attempts bring one byte of a header, so the reader gives up with that byte. -/
theorem first_byte_waited :
    ∃ log, read ⟨7⟩ 2 .empty (⟨Simulation.Tape.pieces, []⟩ : Watched Simulation.Tape) =
        (.error .timeout, ⟨[22]⟩, ⟨⟨Simulation.Tape.pieces.chunks.drop 2⟩, log⟩) ∧
      log.countP Occurrence.isReceive = 2 ∧ log.flatMap Occurrence.bytes = [22] ∧
      Record.Undecided [22] := by
  have hread : read ⟨7⟩ 2 .empty Simulation.Tape.pieces =
      (.error .timeout, ⟨[22]⟩, ⟨Simulation.Tape.pieces.chunks.drop 2⟩) := rfl
  obtain ⟨answer, r', t', log, hanswer, hwatched, hwaited, -⟩ :=
    read_waited ⟨7⟩ 2 .empty Simulation.Tape.pieces
  rw [hread] at hanswer
  cases hanswer
  obtain ⟨hcount, hundecided⟩ := hwaited.timeout rfl
  have hbytes : log.flatMap Occurrence.bytes = [22] := hwaited.conserved
  rw [hbytes] at hundecided
  exact ⟨log, hwatched, hcount, hbytes, hundecided⟩

end RecordReader
end TlsClient
