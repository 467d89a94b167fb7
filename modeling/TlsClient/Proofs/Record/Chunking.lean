import TlsClient.Proofs.Record.Contents
import TlsClient.Simulation.Tape

/-!
Records do not depend on the pieces that a stream arrives in. A client that asks a reader again and
again is given the records of the stream in their order and then the error of the header that ends
them, over any transport that `Delivers` the stream. A call that gives up waiting takes nothing out of
this sequence, so later calls go on with it.
-/

namespace TlsClient

open Network

/-- All that a reader can say about a byte string: its records, and what ends them. -/
def Record.expected (bs : Bytes) : List (Except Error Record) :=
  (contents bs).1.map .ok ++ (contents bs).2.toList.map .error

namespace RecordReader

/-- Whether the error is about the transport or the time, and not about what has arrived. -/
def IsEnding (e : Error) : Prop :=
  e = .connectionClosed ∨ e = .timeout ∨ ∃ fault, e = .transport fault

def isSettled : Except Error Record → Bool
  | .error .timeout => false
  | _ => true

/-- Answers that tell what a byte string holds: its records in order, and from then on either the
error that they end with or that nothing follows. -/
inductive Tells : List Record × Option Error → List (Except Error Record) → Prop
  | nil (held : List Record × Option Error) : Tells held []
  | record {record : Record} {records : List Record} {fault : Option Error}
    {answers : List (Except Error Record)} (h : Tells (records, fault) answers) :
    Tells (record :: records, fault) (.ok record :: answers)
  | refused {e : Error} {answers : List (Except Error Record)} (h : Tells ([], some e) answers) :
    Tells ([], some e) (.error e :: answers)
  | ended {e : Error} {answers : List (Except Error Record)} (he : IsEnding e)
    (h : Tells ([], none) answers) : Tells ([], none) (.error e :: answers)

/-- As far as answers go that tell a byte string, they are what can be said about it. -/
theorem Tells.take_eq {bs : Bytes} {answers : List (Except Error Record)}
    (h : Tells (Record.contents bs) answers) :
    answers.take (Record.expected bs).length = (Record.expected bs).take answers.length := by
  unfold Record.expected
  generalize Record.contents bs = held at h
  induction h with
  | nil => rw [List.take_nil, List.length_nil, List.take_zero]
  | record _ ih => exact congrArg (List.cons _) ih
  | @refused e answers _ _ =>
    show _ = [Except.error e].take (answers.length + 1)
    rw [List.take_succ_cons, List.take_nil]
    exact congrArg (List.cons _) List.take_zero
  | ended => exact (List.take_nil).symm

section
variable {τ : Type} [Transport τ]

def afterAttempts (id : LinkId) : Nat → τ → τ
  | 0, t => t
  | n + 1, t => afterAttempts id n (attempt id t).2

theorem afterAttempts_add (id : LinkId) (m n : Nat) (t : τ) :
    afterAttempts id (m + n) t = afterAttempts id n (afterAttempts id m t) := by
  induction m generalizing t with
  | zero => rw [Nat.zero_add, afterAttempts]
  | succ m ih =>
    rw [Nat.succ_add, afterAttempts, afterAttempts]
    exact ih _

/-- What a client is told that asks for a record again and again, with a limit on the polls of each
call. -/
def answers (id : LinkId) : (calls : List Nat) → RecordReader → τ → List (Except Error Record)
  | [], _, _ => []
  | polls :: calls, r, t =>
    let (answer, r, t) := read id polls r t
    answer :: answers id calls r t

theorem length_answers (id : LinkId) (calls : List Nat) (r : RecordReader) (t : τ) :
    (answers id calls r t).length = calls.length := by
  induction calls generalizing r t with
  | nil => rfl
  | cons polls calls ih => exact congrArg (· + 1) (ih _ _)

/-- The record of a transport has no part in the answers. -/
theorem answers_inner (id : LinkId) (calls : List Nat) (r : RecordReader) (t : Recorded τ) :
    answers id calls r t.inner = answers id calls r t := by
  induction calls generalizing r t with
  | nil => rfl
  | cons polls calls ih =>
    rw [answers, answers, read_map .inner]
    exact congrArg (List.cons _) (ih _ _)

/-- The transport delivers the stream: what has arrived is the beginning of it whenever a reader asks,
and as long as something is missing no attempt fails or finds the connection closed. -/
structure Delivers (id : LinkId) (stream : Bytes) (t : Recorded τ) : Prop where
  received : ∀ n, (afterAttempts id n t).received <+: stream
  succeeds : ∀ n, (afterAttempts id n t).received ≠ stream →
    ∃ bs, (attempt id (afterAttempts id n t)).1 = .ok bs

/-- No call gives up waiting before all of the stream has arrived. -/
def Punctual (id : LinkId) (stream : Bytes) : List Nat → RecordReader → Recorded τ → Prop
  | [], _, _ => True
  | polls :: calls, r, t =>
    let (answer, r, t) := read id polls r t
    (answer = .error .timeout → t.received = stream) ∧ Punctual id stream calls r t

def unread (stream : Bytes) (r : RecordReader) (t : Recorded τ) : Bytes :=
  r.buffer ++ stream.drop t.received.length

variable {id : LinkId} {stream : Bytes} {r r' : RecordReader} {t t' : Recorded τ}

theorem Delivers.after (h : Delivers id stream t) (n : Nat) :
    Delivers id stream (afterAttempts id n t) where
  received m := by
    rw [← afterAttempts_add]
    exact h.received (n + m)
  succeeds m := by
    rw [← afterAttempts_add]
    exact h.succeeds (n + m)

/-- A transport that delivers a stream still does so after an attempt. -/
theorem Delivers.next {result : Except Error Bytes} (h : Delivers id stream t)
    (hattempt : attempt id t = (result, t')) : Delivers id stream t' := by
  have hone := h.after 1
  rw [afterAttempts, afterAttempts, hattempt] at hone
  exact hone

/-- What an attempt brings is moved from what is to come into the reader. -/
theorem unread_of_attempt {bs : Bytes} (h : Delivers id stream t)
    (hattempt : attempt id t = (.ok bs, t')) :
    unread stream (r.append bs) t' = unread stream r t := by
  have hreceived : t'.received = t.received ++ bs := by
    have hall := (received_attempt id t).1
    rw [hattempt] at hall
    exact hall
  -- What has arrived by now is the beginning of the stream, and `left` is the rest of it.
  obtain ⟨left, hleft⟩ := (h.next hattempt).received 0
  rw [afterAttempts] at hleft
  have hdrop : stream.drop t.received.length = bs ++ left := by
    rw [← hleft, hreceived, List.append_assoc, List.drop_left]
  have hdrop' : stream.drop t'.received.length = left := by
    rw [← hleft, List.drop_left]
  rw [unread, unread, hdrop, hdrop', append, List.append_assoc]

/-- When an attempt fails, nothing is to come and nothing has come. -/
theorem unread_of_failed_attempt {e : Error} (h : Delivers id stream t)
    (hattempt : attempt id t = (.error e, t')) :
    unread stream r t = r.buffer ∧ unread stream r t' = r.buffer := by
  have hall : t.received = stream := by
    refine Decidable.byContradiction fun hne => ?_
    obtain ⟨bs, hbs⟩ := h.succeeds 0 hne
    rw [afterAttempts, hattempt] at hbs
    cases hbs
  have hall' : t'.received = stream := by
    have hrecord := (received_attempt id t).1
    rw [hattempt] at hrecord
    rw [hrecord, hall]
    exact List.append_nil _
  rw [unread, unread, hall, hall', List.drop_length, List.append_nil]
  exact ⟨rfl, rfl⟩

/-- An attempt fails for reasons of the transport, never for what has arrived. -/
theorem isEnding_of_attempt {t t' : τ} {e : Error} (h : attempt id t = (.error e, t')) :
    IsEnding e := by
  unfold attempt at h
  split at h
  · cases h
    exact .inr (.inr ⟨_, rfl⟩)
  · split at h
    · cases h
      exact .inl rfl
    · cases h
  · cases h

/-- What a call comes to, when `before` was not told yet and `after` is not told afterwards. -/
inductive Answer (before after : Bytes) (complete : Prop) : Except Error Record → Prop
  | record {record : Record}
    (h : Record.contents before = (record :: (Record.contents after).1, (Record.contents after).2)) :
    Answer before after complete (.ok record)
  | refused {e : Error} (h : Record.contents before = ([], some e)) (hsame : after = before) :
    Answer before after complete (.error e)
  | ended {e : Error} (he : IsEnding e) (h : Record.contents before = ([], none))
    (hsame : after = before) : Answer before after complete (.error e)
  | timeout (h : complete → Record.contents before = ([], none)) (hsame : after = before) :
    Answer before after complete (.error .timeout)

/-- One call tells the next that the stream holds, or nothing. -/
theorem read_answer (h : Delivers id stream t) (polls : Nat) (r : RecordReader) :
    Answer (unread stream r t) (unread stream (read id polls r t).2.1 (read id polls r t).2.2)
      ((read id polls r t).2.2.received = stream) (read id polls r t).1 := by
  -- The induction is on the attempts: each one leaves what is unread as it is.
  have hrun := read_run id polls r t
  generalize (read id polls r t).1 = answer, (read id polls r t).2.1 = r',
    (read id polls r t).2.2 = t' at hrun ⊢
  induction hrun with
  | found hnext => exact .record (contents_of_some hnext _)
  | refused hnext => exact .refused (contents_of_error hnext _) rfl
  | @timeout r t hnext =>
    refine .timeout (fun hall => ?_) rfl
    rw [unread, hall, List.drop_length, List.append_nil]
    exact contents_of_none hnext
  | @failed _ r t u e hnext hattempt =>
    obtain ⟨hbefore, hafter⟩ := unread_of_failed_attempt (r := r) h hattempt
    refine .ended (isEnding_of_attempt hattempt) ?_ (hafter.trans hbefore.symm)
    rw [hbefore]
    exact contents_of_none hnext
  | @next _ r _ t u _ bs _ hnext hattempt _ ih =>
    rw [← unread_of_attempt (r := r) h hattempt]
    exact ih (h.next hattempt)

/-- An answer goes in front of those that follow, unless it gives up waiting too early. -/
theorem Answer.tells {before after : Bytes} {complete : Prop} {answer : Except Error Record}
    {answers : List (Except Error Record)} (h : Answer before after complete answer)
    (hpunctual : answer = .error .timeout → complete)
    (hrest : Tells (Record.contents after) answers) :
    Tells (Record.contents before) (answer :: answers) := by
  cases h with
  | record h =>
    rw [h]
    exact .record hrest
  | refused h hsame =>
    rw [hsame, h] at hrest
    rw [h]
    exact .refused hrest
  | ended he h hsame =>
    rw [hsame, h] at hrest
    rw [h]
    exact .ended he hrest
  | timeout h hsame =>
    have hnone := h (hpunctual rfl)
    rw [hsame, hnone] at hrest
    rw [hnone]
    exact .ended (.inr (.inl rfl)) hrest

/-- An error takes nothing with it. -/
theorem Answer.after_eq {before after : Bytes} {complete : Prop} {e : Error}
    (h : Answer before after complete (.error e)) : after = before := by
  cases h with
  | refused _ hsame => exact hsame
  | ended _ _ hsame => exact hsame
  | timeout _ hsame => exact hsame

theorem next?_ne_timeout (r : RecordReader) : r.next? ≠ .error .timeout := by
  intro h
  rcases next?_eq_error h with ⟨code, hcode⟩ | ⟨n, hlong⟩
  · cases hcode
  · cases hlong

theorem attempt_ne_timeout (id : LinkId) (t : τ) : (attempt id t).1 ≠ .error .timeout := by
  intro h
  unfold attempt at h
  split at h
  · cases h
  · split at h <;> cases h
  · cases h

/-- A call makes some attempts and, if it gives up waiting, all that it may make. -/
theorem read_attempts (id : LinkId) (polls : Nat) (r : RecordReader) (t : τ) :
    ∃ n, (read id polls r t).2.2 = afterAttempts id n t ∧
      ((read id polls r t).1 = .error .timeout → n = polls) := by
  have hrun := read_run id polls r t
  generalize (read id polls r t).1 = answer, (read id polls r t).2.1 = r',
    (read id polls r t).2.2 = t' at hrun ⊢
  induction hrun with
  | found hnext => exact ⟨0, rfl, fun htimeout => by cases htimeout⟩
  | @refused _ r _ _ hnext =>
    refine ⟨0, rfl, fun htimeout => ?_⟩
    cases htimeout
    exact absurd hnext (next?_ne_timeout r)
  | timeout _ => exact ⟨0, rfl, fun _ => rfl⟩
  | @failed _ _ t _ _ _ hattempt =>
    refine ⟨1, ?_, fun htimeout => ?_⟩
    · rw [afterAttempts, afterAttempts, hattempt]
    · cases htimeout
      exact absurd (congrArg Prod.fst hattempt) (attempt_ne_timeout id t)
  | next _ hattempt _ ih =>
    obtain ⟨n, hn, htimeout⟩ := ih
    refine ⟨n + 1, ?_, fun h => congrArg (· + 1) (htimeout h)⟩
    rw [afterAttempts, hattempt]
    exact hn

/-- A call that hands out no record ends with a header that is refused, or without one for want of
bytes. -/
theorem next?_of_read_error {polls : Nat} {r r' : RecordReader} {t t' : τ} {e : Error}
    (h : read id polls r t = (.error e, r', t')) :
    r'.next? = .error e ∨ r'.next? = .ok none ∧ IsEnding e := by
  have hrun : Run id polls r t (.error e) r' t' := by
    have hread := read_run id polls r t
    rw [h] at hread
    exact hread
  clear h
  generalize hanswer : Except.error e = answer at hrun
  induction hrun with
  | found _ => cases hanswer
  | refused hnext =>
    cases hanswer
    exact .inl hnext
  | timeout hnext =>
    cases hanswer
    exact .inr ⟨hnext, .inr (.inl rfl)⟩
  | failed hnext hattempt =>
    cases hanswer
    exact .inr ⟨hnext, isEnding_of_attempt hattempt⟩
  | next _ _ _ ih => exact ih hanswer

/-- A transport that delivers a stream still does so after a call. -/
theorem Delivers.read (h : Delivers id stream t) (polls : Nat) (r : RecordReader) :
    Delivers id stream (read id polls r t).2.2 := by
  obtain ⟨n, hn, -⟩ := read_attempts id polls r t
  rw [hn]
  exact h.after n

/-- What has arrived stays at the front of all that arrives. -/
theorem received_prefix (id : LinkId) (n : Nat) (t : Recorded τ) :
    t.received <+: (afterAttempts id n t).received := by
  induction n generalizing t with
  | zero => exact List.prefix_rfl
  | succ n ih =>
    have hone : t.received <+: (attempt id t).2.received := by
      rw [(received_attempt id t).1]
      exact List.prefix_append _ _
    exact hone.trans (ih (attempt id t).2)

/-- What has arrived stays all that is to come. -/
theorem Delivers.received_eq {n : Nat} (h : Delivers id stream t)
    (hn : (afterAttempts id n t).received = stream) (k : Nat) :
    (afterAttempts id (n + k) t).received = stream := by
  have hle : stream <+: (afterAttempts id (n + k) t).received := by
    have hmore := received_prefix id k (afterAttempts id n t)
    rw [hn, ← afterAttempts_add] at hmore
    exact hmore
  exact (h.received (n + k)).eq_of_length_le hle.length_le

/-- It is enough that every call may make as many attempts as it takes for all to arrive. -/
theorem punctual_of_attempts {n : Nat} {calls : List Nat} (h : Delivers id stream t)
    (hn : (afterAttempts id n t).received = stream) (hcalls : ∀ polls ∈ calls, n ≤ polls) :
    Punctual id stream calls r t := by
  induction calls generalizing r t with
  | nil => trivial
  | cons polls calls ih =>
    obtain ⟨m, hm, htimeout⟩ := read_attempts id polls r t
    refine ⟨fun hgiven => ?_, ?_⟩
    · obtain ⟨k, hk⟩ := Nat.exists_eq_add_of_le (hcalls polls List.mem_cons_self)
      rw [hm, htimeout hgiven, hk]
      exact h.received_eq hn k
    · -- Later calls find the transport ahead of where this one found it.
      refine ih (h.read polls r) ?_ fun polls hpolls => hcalls polls (List.mem_cons_of_mem _ hpolls)
      rw [hm, ← afterAttempts_add, Nat.add_comm]
      exact h.received_eq hn m

/-- When no call gives up waiting too early, the answers tell what the stream holds. -/
theorem tells_of_punctual {calls : List Nat} (h : Delivers id stream t)
    (hcalls : Punctual id stream calls r t) :
    Tells (Record.contents (unread stream r t)) (answers id calls r t) := by
  induction calls generalizing r t with
  | nil => exact .nil _
  | cons polls calls ih =>
    obtain ⟨htime, hrest⟩ := hcalls
    exact (read_answer h polls r).tells htime (ih (h.read polls r) hrest)

/-- Apart from the calls that give up waiting, the answers tell what the stream holds in any case. -/
theorem tells_of_delivers (calls : List Nat) (h : Delivers id stream t) :
    Tells (Record.contents (unread stream r t))
      ((answers id calls r t).filter isSettled) := by
  induction calls generalizing r t with
  | nil => exact .nil _
  | cons polls calls ih =>
    have hanswer := read_answer h polls r
    have hrest := @ih (RecordReader.read id polls r t).2.1 _ (h.read polls r)
    rw [answers]
    dsimp only
    -- A call that gives up waiting is left out, and it has changed nothing of what is unread.
    generalize (RecordReader.read id polls r t).1 = answer at hanswer
    by_cases htimeout : answer = .error .timeout
    · subst htimeout
      rw [hanswer.after_eq] at hrest
      exact hrest
    · have hkept : isSettled answer = true := by
        unfold isSettled
        split
        · exact absurd rfl htimeout
        · rfl
      rw [List.filter_cons_of_pos hkept]
      exact hanswer.tells (fun h => absurd h htimeout) hrest

/-- What a client is told of a stream that arrives over a transport of any kind. -/
theorem answers_tell {t : τ} {calls : List Nat} (h : Delivers id stream (.start t))
    (hcalls : Punctual id stream calls .empty (.start t)) :
    Tells (Record.contents stream) (answers id calls .empty t) ∧
      (answers id calls .empty t).take (Record.expected stream).length =
        (Record.expected stream).take calls.length := by
  have htells : Tells (Record.contents stream) (answers id calls .empty t) := by
    have hrecorded := tells_of_punctual h hcalls
    rw [← answers_inner] at hrecorded
    -- Nothing was read yet, so all of the stream is unread.
    exact hrecorded
  have htake := htells.take_eq
  rw [length_answers] at htake
  exact ⟨htells, htake⟩

/-- Records do not depend on the pieces that a stream arrives in. Two transports that deliver the same
stream let the same number of calls hand out the same records and then the same error, namely what the
stream holds; calls that give up waiting on the way only put this off. -/
theorem answers_independent {τ' : Type} [Transport τ'] {id' : LinkId} {t : τ} {t' : τ'}
    (h : Delivers id stream (.start t)) (h' : Delivers id' stream (.start t'))
    (calls calls' : List Nat) :
    (Punctual id stream calls .empty (.start t) → Punctual id' stream calls' .empty (.start t') →
      calls.length = calls'.length →
      (answers id calls .empty t).take (Record.expected stream).length =
        (answers id' calls' .empty t').take (Record.expected stream).length) ∧
    (Punctual id stream calls .empty (.start t) →
      Tells (Record.contents stream) (answers id calls .empty t) ∧
        (answers id calls .empty t).take (Record.expected stream).length =
          (Record.expected stream).take calls.length) ∧
    Tells (Record.contents stream) ((answers id calls .empty t).filter isSettled) := by
  refine ⟨fun hcalls hcalls' hlength => ?_, fun hcalls => answers_tell h hcalls, ?_⟩
  · calc (answers id calls .empty t).take (Record.expected stream).length
      _ = (Record.expected stream).take calls.length := (answers_tell h hcalls).2
      _ = (Record.expected stream).take calls'.length := by rw [hlength]
      _ = (answers id' calls' .empty t').take (Record.expected stream).length :=
        (answers_tell h' hcalls').2.symm
  · have hrecorded := tells_of_delivers (r := .empty) calls h
    rw [← answers_inner] at hrecorded
    exact hrecorded

end
end RecordReader

namespace Simulation.Tape

open RecordReader

/-- An attempt takes what it brings off the tape. -/
theorem attempt_eq (id : LinkId) (t : Recorded Tape) :
    ∃ bs u, attempt id t = (.ok bs, u) ∧
      u.received ++ u.inner.chunks.flatten = t.received ++ t.inner.chunks.flatten := by
  obtain ⟨⟨chunks⟩, sent, received⟩ := t
  cases chunks with
  | nil => exact ⟨[], ⟨⟨[]⟩, sent, received ++ []⟩, rfl, by rw [List.append_nil]⟩
  | cons chunk chunks =>
    let left := if chunk.drop receiveLimit = [] then chunks else chunk.drop receiveLimit :: chunks
    have hleft : chunk.take receiveLimit ++ left.flatten = chunk ++ chunks.flatten := by
      conv => rhs; rw [← List.take_append_drop receiveLimit chunk]
      dsimp only [left]
      split
      · rename_i hnone
        rw [hnone, List.append_nil]
      · rw [List.flatten_cons, List.append_assoc]
    have hrecv : Transport.recv (⟨⟨chunk :: chunks⟩, sent, received⟩ : Recorded Tape) id receiveLimit =
        (.ok (chunk.take receiveLimit), ⟨⟨left⟩, sent, received ++ chunk.take receiveLimit⟩) := rfl
    refine ⟨chunk.take receiveLimit, ⟨⟨left⟩, sent, received ++ chunk.take receiveLimit⟩, ?_, ?_⟩
    · rw [attempt, hrecv]
      -- A tape is never closed, so an empty piece is polled for.
      rcases chunk.take receiveLimit with _ | ⟨b, bs⟩ <;> rfl
    · rw [List.append_assoc, hleft, List.flatten_cons]

/-- A tape delivers what is on it. -/
theorem delivers (id : LinkId) (chunks : List Bytes) :
    Delivers id chunks.flatten (.start (⟨chunks⟩ : Tape)) := by
  have hall (n : Nat) (t : Recorded Tape) :
      (afterAttempts id n t).received ++ (afterAttempts id n t).inner.chunks.flatten =
        t.received ++ t.inner.chunks.flatten := by
    induction n generalizing t with
    | zero => rfl
    | succ n ih =>
      obtain ⟨bs, u, hattempt, hu⟩ := attempt_eq id t
      rw [afterAttempts, hattempt]
      exact (ih u).trans hu
  constructor
  · intro n
    exact ⟨_, hall n (.start ⟨chunks⟩)⟩
  · intro n _
    obtain ⟨bs, u, hattempt, -⟩ := attempt_eq id (afterAttempts id n (.start ⟨chunks⟩))
    exact ⟨bs, congrArg Prod.fst hattempt⟩

def pieces : Tape where
  chunks := [[22], [], [3, 3, 0, 1, 7, 21, 3], [3, 0, 0, 99], [], [3, 3, 0, 0]]

def whole : Tape where
  chunks := [[22, 3, 3, 0, 1, 7, 21, 3, 3, 0, 0, 99, 3, 3, 0, 0]]

/-- The pieces are read like the whole, and a client that is in a hurry comes to the same answers. -/
theorem pieces_read_like_whole :
    Record.expected whole.chunks.flatten =
        [.ok ⟨.handshake, .tls12, [7]⟩, .ok ⟨.alert, .tls12, []⟩, .error (.invalidContentType 99)] ∧
      (answers ⟨7⟩ [9, 9, 9, 9] .empty pieces).take 3 = (answers ⟨7⟩ [6, 8, 6, 6] .empty whole).take 3 ∧
      (answers ⟨7⟩ [9, 9, 9, 9] .empty pieces).take 3 = Record.expected whole.chunks.flatten ∧
      Tells (Record.contents whole.chunks.flatten)
        ((answers ⟨7⟩ [1, 1, 1, 1, 1, 1, 1, 1] .empty pieces).filter isSettled) := by
  have hcontents : Record.contents whole.chunks.flatten =
      ([⟨.handshake, .tls12, [7]⟩, ⟨.alert, .tls12, []⟩], some (.invalidContentType 99)) := by
    have hfirst : next? ⟨whole.chunks.flatten⟩ =
        .ok (some (⟨.handshake, .tls12, [7]⟩, ⟨[21, 3, 3, 0, 0, 99, 3, 3, 0, 0]⟩)) := rfl
    have hsecond : next? ⟨[21, 3, 3, 0, 0, 99, 3, 3, 0, 0]⟩ =
        .ok (some (⟨.alert, .tls12, []⟩, ⟨[99, 3, 3, 0, 0]⟩)) := rfl
    have hthird : next? ⟨[99, 3, 3, 0, 0]⟩ = .error (.invalidContentType 99) := rfl
    rw [contents_eq ⟨_⟩, hfirst]
    dsimp only
    rw [contents_eq ⟨_⟩, hsecond]
    dsimp only
    rw [contents_eq ⟨_⟩, hthird]
  have hexpected : Record.expected whole.chunks.flatten =
      [.ok ⟨.handshake, .tls12, [7]⟩, .ok ⟨.alert, .tls12, []⟩,
        .error (.invalidContentType 99)] := by
    rw [Record.expected, hcontents]
    rfl
  have hpieces : Delivers ⟨7⟩ whole.chunks.flatten (.start pieces) := delivers ⟨7⟩ pieces.chunks
  have hwhole : Delivers ⟨7⟩ whole.chunks.flatten (.start whole) := delivers ⟨7⟩ whole.chunks
  have hpunctual : Punctual ⟨7⟩ whole.chunks.flatten [9, 9, 9, 9] .empty (.start pieces) :=
    punctual_of_attempts hpieces (n := 6) rfl (by decide)
  have hpunctual' : Punctual ⟨7⟩ whole.chunks.flatten [6, 8, 6, 6] .empty (.start whole) :=
    punctual_of_attempts hwhole (n := 1) rfl (by decide)
  obtain ⟨hsame, htells, -⟩ := answers_independent hpieces hwhole [9, 9, 9, 9] [6, 8, 6, 6]
  obtain ⟨-, -, hhurry⟩ := answers_independent hpieces hwhole [1, 1, 1, 1, 1, 1, 1, 1] []
  have hfirst := (htells hpunctual).2
  have hboth := hsame hpunctual hpunctual' rfl
  rw [hexpected] at hfirst hboth ⊢
  exact ⟨rfl, hboth, hfirst, hhurry⟩

end Simulation.Tape
end TlsClient
