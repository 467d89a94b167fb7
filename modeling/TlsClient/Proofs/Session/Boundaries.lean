import TlsClient.Proofs.Session.Splitting
import TlsClient.Proofs.Session.Supply
import TlsClient.Simulation.Tape

/-!
The boundaries of records make no difference to the messages in them. Whatever handshake records
bring a byte string, the messages that come out of it are its `greedy` split, and what was handed
out and what is buffered are at any time the fragments that were taken.
-/

namespace TlsClient.Session

open Network Handshake

variable {τ ρ : Type}

def buffering (s : Session τ ρ) (b : Bytes) : Session τ ρ :=
  s.updating fun c => { c with handshakeBuffer := b }

@[simp] theorem buffer_buffering (s : Session τ ρ) (b : Bytes) :
    (s.buffering b).connection.handshakeBuffer = b := rfl

theorem buffering_self {s : Session τ ρ} {b : Bytes} (h : s.connection.handshakeBuffer = b) :
    s.buffering b = s := by
  subst h
  rfl

theorem neutral_buffering (b : Bytes) : Neutral fun c => { c with handshakeBuffer := b } := by
  constructor <;> intros <;> rfl

variable {s t u : Session τ ρ} {fuel : Nat}

theorem completeLength_eq_none {b : Bytes} (h : ∀ n, announced b = some n → b.length < n) :
    completeLength b = none := by
  cases hb : completeLength b with
  | none => rfl
  | some n =>
    obtain ⟨hn, hle⟩ := completeLength_eq_some_iff_announced.1 hb
    exact absurd hle (Nat.not_le.2 (h n hn))

/-- A message that announces too much is refused before any of it is waited for. -/
theorem checkAnnounced_overlong {b : Bytes} {n : Nat} (hn : announced b = some n)
    (hlimit : messageLimit < n) :
    checkAnnounced b s = .error (.failed (.tooLong n messageLimit)) s := by
  obtain ⟨header, rest, hparse, rfl⟩ := announced_eq_some_iff.1 hn
  rw [checkAnnounced, hparse]
  dsimp only
  rw [if_pos hlimit]
  rfl

theorem checkAnnounced_waits {b : Bytes} (h : Waits b) : checkAnnounced b s = .ok () s := by
  unfold checkAnnounced
  cases hparse : HandshakeHeader.parse b with
  | error e => rfl
  | ok r =>
    obtain ⟨header, rest⟩ := r
    have hlimit := (h _ (announced_eq_some_iff.2 ⟨header, rest, hparse, rfl⟩)).2
    dsimp only
    rw [if_neg (Nat.not_lt.2 hlimit)]
    rfl

variable [Transport τ]

/-- A complete message is taken out of the buffer, and nothing is received for it. -/
theorem receiveMessage_complete {n : Nat} (hn : announced s.connection.handshakeBuffer = some n)
    (hle : n ≤ s.connection.handshakeBuffer.length) :
    receiveMessage (fuel + 1) s =
      .ok (s.connection.handshakeBuffer.take n)
        (s.buffering (s.connection.handshakeBuffer.drop n)) := by
  have hcomplete := completeLength_eq_some_iff_announced.2 ⟨hn, hle⟩
  rw [receiveMessage]
  apply (bind_of_ok rfl).trans
  rw [hcomplete]
  rfl

theorem receiveMessage_overlong {n : Nat} (hn : announced s.connection.handshakeBuffer = some n)
    (hmore : s.connection.handshakeBuffer.length < n) (hlimit : messageLimit < n) :
    receiveMessage (fuel + 1) s = .error (.failed (.tooLong n messageLimit)) s := by
  have hnone : completeLength s.connection.handshakeBuffer = none := by
    apply completeLength_eq_none
    intro k hk
    obtain rfl := Option.some.inj (hn.symm.trans hk)
    exact hmore
  rw [receiveMessage]
  apply (bind_of_ok rfl).trans
  rw [hnone]
  exact bind_of_error (checkAnnounced_overlong hn hlimit)

/-- A session that waits moves the next record to the end of its buffer and looks again. -/
theorem receiveMessage_waits (fuel : Nat) {r : Record} (hwait : Waits s.connection.handshakeBuffer)
    (h : receive s = .ok r t) (hkind : r.contentType = .handshake) :
    receiveMessage (fuel + 1) s =
      receiveMessage fuel (t.buffering (t.connection.handshakeBuffer ++ r.fragment)) := by
  have hnone : completeLength s.connection.handshakeBuffer = none :=
    completeLength_eq_none fun n hn => (hwait n hn).1
  rw [receiveMessage]
  apply (bind_of_ok rfl).trans
  rw [hnone]
  apply (bind_of_ok (checkAnnounced_waits hwait)).trans
  apply (bind_of_ok h).trans
  rw [hkind]
  rfl

/-- From `s` to `t` the fragments `taken` were read, and those still to come on the way to `u` are
`left`. What is buffered does not matter for that. -/
structure Reads (s t u : Session τ ρ) (taken left : List Bytes) : Prop where
  taken : Brings s taken (t.buffering s.connection.handshakeBuffer)
  left : Brings t left (u.buffering t.connection.handshakeBuffer)

/-- What is buffered makes no difference to the records that follow. -/
theorem Brings.buffering {fragments : List Bytes} (b : Bytes) (h : Brings s fragments u) :
    Brings (s.buffering b) fragments (u.buffering b) :=
  h.updating (neutral_buffering b)

theorem Reads.start {fragments : List Bytes} (b : Bytes) (h : Brings s fragments u) :
    Reads s (s.buffering b) u [] fragments :=
  ⟨.nil s, h.buffering b⟩

/-- Fragments that are read one after the other have been read together. -/
theorem Reads.trans {v : Session τ ρ} {taken later left left' : List Bytes}
    (h : Reads s t u taken left)
    (h' : Reads t v (u.buffering t.connection.handshakeBuffer) later left') :
    Reads s v u (taken ++ later) left' := by
  constructor
  · exact h.taken.append (h'.taken.buffering s.connection.handshakeBuffer)
  · exact h'.left

theorem receive_buffer {r : Record} (h : receive s = .ok r t) :
    t.connection.handshakeBuffer = s.connection.handshakeBuffer := by
  obtain ⟨_, _, _, rfl⟩ := receive_changes h
  rfl

/-- What a call for a message comes to on a session that brings fragments, in terms of the bytes in
the buffer and in the fragments together. -/
inductive Outcome (fuel : Nat) (s u : Session τ ρ) (fragments : List Bytes) (all : Bytes) : Prop
  | message {n : Nat} {taken left : List Bytes} {t : Session τ ρ}
    (announced : announced all = some n) (limit : n ≤ messageLimit) (complete : n ≤ all.length)
    (result : receiveMessage fuel s = .ok (all.take n) t)
    (parts : taken ++ left = fragments) (reads : Reads s t u taken left)
    (bytes : s.connection.handshakeBuffer ++ taken.flatten =
      all.take n ++ t.connection.handshakeBuffer)
    (manageable : Manageable t.connection.handshakeBuffer)
  | overlong {n : Nat} {taken left : List Bytes} {t : Session τ ρ}
    (announced : announced all = some n) (limit : messageLimit < n)
    (result : receiveMessage fuel s = .error (.failed (.tooLong n messageLimit)) t)
    (parts : taken ++ left = fragments) (reads : Reads s t u taken left)
    (bytes : s.connection.handshakeBuffer ++ taken.flatten = t.connection.handshakeBuffer)
  | more (waits : Waits all)
    (result : receiveMessage fuel s = receiveMessage (fuel - fragments.length) (u.buffering all))

/-- A buffer that does not wait decides the call without any further record. -/
theorem outcome_of_buffered {fragments : List Bytes} (h : Brings s fragments u)
    (hmanageable : Manageable s.connection.handshakeBuffer)
    (hbuffer : ¬ Waits s.connection.handshakeBuffer) :
    Outcome (fuel + 1) s u fragments (s.connection.handshakeBuffer ++ fragments.flatten) := by
  rcases complete_or_overlong_or_waits s.connection.handshakeBuffer with hcomplete | hlong | hwait
  · obtain ⟨n, hn, hle⟩ := hcomplete
    have htake : (s.connection.handshakeBuffer ++ fragments.flatten).take n =
        s.connection.handshakeBuffer.take n := List.take_append_of_le_length hle
    apply Outcome.message (announced_append _ hn) (hmanageable n hn hle).1
    case complete =>
      rw [List.length_append]
      omega
    case result =>
      rw [htake]
      exact receiveMessage_complete hn hle
    case parts => exact List.nil_append fragments
    case reads => exact Reads.start _ h
    case bytes =>
      rw [htake, List.flatten_nil, List.append_nil]
      exact (List.take_append_drop n _).symm
    case manageable => exact hmanageable.drop hn hle
  · obtain ⟨n, hn, hmore, hlimit⟩ := hlong
    apply Outcome.overlong (announced_append _ hn) hlimit (receiveMessage_overlong hn hmore hlimit)
    case parts => exact List.nil_append fragments
    case reads => exact Reads.start _ h
    case bytes => exact List.append_nil _
  · exact absurd hwait hbuffer

/-- A session that waits reads the first of the fragments and is then one with one fragment less. -/
theorem exists_turn (fuel : Nat) {fragment : Bytes} {fragments : List Bytes}
    (h : Brings s (fragment :: fragments) u) (hwait : Waits s.connection.handshakeBuffer) :
    ∃ t, receiveMessage (fuel + 1) s = receiveMessage fuel t ∧ Reads s t u [fragment] fragments ∧
      t.connection.handshakeBuffer = s.connection.handshakeBuffer ++ fragment ∧
      Manageable t.connection.handshakeBuffer := by
  have hshort := h.length_le fragment List.mem_cons_self
  cases h with
  | cons hreceive hkind hrest =>
    rename_i t r
    have hsame := receive_buffer hreceive
    have hturn := receiveMessage_waits fuel hwait hreceive hkind
    rw [hsame] at hturn
    refine ⟨t.buffering (s.connection.handshakeBuffer ++ r.fragment), hturn, ?_, rfl, ?_⟩
    · constructor
      · have hback : (t.buffering (s.connection.handshakeBuffer ++ r.fragment)).buffering
            s.connection.handshakeBuffer = t := buffering_self hsame
        rw [hback]
        exact .cons hreceive hkind (.nil t)
      · exact hrest.buffering _
    · exact hwait.manageable_append hshort

/-- What a call comes to after the first of the fragments was read is what it comes to. -/
theorem Outcome.cons {fragment all : Bytes} {fragments : List Bytes}
    (hturn : receiveMessage (fuel + 1) s = receiveMessage fuel t)
    (hread : Reads s t u [fragment] fragments)
    (hbuffer : t.connection.handshakeBuffer = s.connection.handshakeBuffer ++ fragment)
    (h : Outcome fuel t (u.buffering t.connection.handshakeBuffer) fragments all) :
    Outcome (fuel + 1) s u (fragment :: fragments) all := by
  have hflat (taken : List Bytes) :
      s.connection.handshakeBuffer ++ ([fragment] ++ taken).flatten =
        t.connection.handshakeBuffer ++ taken.flatten := by
    rw [hbuffer, List.append_assoc]
    rfl
  cases h with
  | message hn hlimit hle hresult hparts hreads hbytes hmanageable =>
    exact .message hn hlimit hle (hturn.trans hresult) (congrArg (fragment :: ·) hparts)
      (hread.trans hreads) ((hflat _).trans hbytes) hmanageable
  | overlong hn hlimit hresult hparts hreads hbytes =>
    exact .overlong hn hlimit (hturn.trans hresult) (congrArg (fragment :: ·) hparts)
      (hread.trans hreads) ((hflat _).trans hbytes)
  | more hwaits hresult =>
    apply Outcome.more hwaits
    rw [hturn, hresult, List.length_cons, Nat.add_sub_add_right]
    rfl

/-- A call for a message gives the first one of buffer and fragments together, however these are
cut. -/
theorem receiveMessage_outcome {fragments : List Bytes} (h : Brings s fragments u)
    (hmanageable : Manageable s.connection.handshakeBuffer) (hfuel : fragments.length < fuel) :
    Outcome fuel s u fragments (s.connection.handshakeBuffer ++ fragments.flatten) := by
  -- One fragment less is one turn less, with the fragment at the end of the buffer.
  induction fragments generalizing s u fuel with
  | nil =>
    obtain ⟨fuel, rfl⟩ := Nat.exists_eq_add_one_of_ne_zero (Nat.ne_of_gt hfuel)
    by_cases hwait : Waits s.connection.handshakeBuffer
    · cases h
      rw [List.flatten_nil, List.append_nil]
      exact .more hwait rfl
    · exact outcome_of_buffered h hmanageable hwait
  | cons fragment fragments ih =>
    obtain ⟨fuel, rfl⟩ := Nat.exists_eq_add_one_of_ne_zero (Nat.ne_zero_of_lt hfuel)
    by_cases hwait : Waits s.connection.handshakeBuffer
    · obtain ⟨t, hturn, hread, hbuffer, hmanageable'⟩ := exists_turn fuel h hwait
      have hall : s.connection.handshakeBuffer ++ (fragment :: fragments).flatten =
          t.connection.handshakeBuffer ++ fragments.flatten := by
        rw [hbuffer, List.flatten_cons, List.append_assoc]
      rw [hall]
      exact .cons hturn hread hbuffer (ih hread.left hmanageable' (Nat.lt_of_succ_lt_succ hfuel))
    · exact outcome_of_buffered h hmanageable hwait

/-! ### Successive calls -/

def receiveMessages (fuel : Nat) : (count : Nat) → Action τ ρ (List Bytes)
  | 0 => return []
  | count + 1 => do
    let m ← receiveMessage fuel
    return m :: (← receiveMessages fuel count)

/-- Between two calls: these messages were handed out, and for them these fragments were read. What
was handed out and what is buffered are what was buffered first and the fragments. -/
structure Between (s t u : Session τ ρ) (messages taken left fragments : List Bytes) : Prop where
  parts : taken ++ left = fragments
  reads : Reads s t u taken left
  bytes : messages.flatten ++ t.connection.handshakeBuffer =
    s.connection.handshakeBuffer ++ taken.flatten

/-- So do calls in a row: what they hand out and leave is the split of all the bytes. -/
theorem Between.trans {v : Session τ ρ}
    {messages later taken more left left' fragments : List Bytes}
    (h : Between s t u messages taken left fragments)
    (h' : Between t v (u.buffering t.connection.handshakeBuffer) later more left' left) :
    Between s v u (messages ++ later) (taken ++ more) left' fragments := by
  constructor
  case parts => rw [List.append_assoc, h'.parts, h.parts]
  case reads => exact h.reads.trans h'.reads
  case bytes =>
    calc (messages ++ later).flatten ++ v.connection.handshakeBuffer
        = messages.flatten ++ (t.connection.handshakeBuffer ++ more.flatten) := by
          rw [List.flatten_append, List.append_assoc, h'.bytes]
      _ = s.connection.handshakeBuffer ++ (taken ++ more).flatten := by
          rw [← List.append_assoc, h.bytes, List.flatten_append, List.append_assoc]

theorem Between.length_left_lt {messages taken left fragments : List Bytes}
    (h : Between s t u messages taken left fragments) (hfuel : fragments.length < fuel) :
    left.length < fuel := by
  rw [← h.parts, List.length_append] at hfuel
  omega

/-- What is not handed out is buffered or still to come. -/
theorem Between.rest {messages taken left fragments : List Bytes}
    (h : Between s t u messages taken left fragments) :
    messages.flatten ++ (t.connection.handshakeBuffer ++ left.flatten) =
      s.connection.handshakeBuffer ++ fragments.flatten := by
  rw [← h.parts, List.flatten_append, ← List.append_assoc, h.bytes, List.append_assoc]

/-- As long as the split has messages, each call gives the next one of them. -/
theorem receiveMessages_greedy {fragments : List Bytes} (h : Brings s fragments u)
    (hmanageable : Manageable s.connection.handshakeBuffer) (hfuel : fragments.length < fuel)
    {count : Nat} {messages : List Bytes} {rest : Bytes}
    (hgreedy : greedy (s.connection.handshakeBuffer ++ fragments.flatten) = (messages, rest))
    (hcount : count ≤ messages.length) :
    ∃ t taken left, receiveMessages fuel count s = .ok (messages.take count) t ∧
      Between s t u (messages.take count) taken left fragments ∧
      Manageable t.connection.handshakeBuffer ∧
      greedy (t.connection.handshakeBuffer ++ left.flatten) = (messages.drop count, rest) := by
  induction count generalizing s u fragments messages with
  | zero =>
    refine ⟨s, [], fragments, rfl, ⟨rfl, Reads.start _ h, ?_⟩, hmanageable, hgreedy⟩
    exact (List.append_nil _).symm
  | succ count ih =>
    cases receiveMessage_outcome h hmanageable hfuel with
    | message hn hlimit hle hresult hparts hreads hbytes hmanageable' =>
      rename_i n taken left t
      have hfirst : Between s t u [(s.connection.handshakeBuffer ++ fragments.flatten).take n]
          taken left fragments := ⟨hparts, hreads, by rw [List.flatten_singleton, hbytes]⟩
      have hrest := hfirst.rest
      rw [List.flatten_singleton] at hrest
      have hdrop : (s.connection.handshakeBuffer ++ fragments.flatten).drop n =
          t.connection.handshakeBuffer ++ left.flatten :=
        List.append_cancel_left ((List.take_append_drop n _).trans hrest.symm)
      rw [greedy_of_complete hn hlimit hle, hdrop] at hgreedy
      obtain ⟨rfl, rfl⟩ := Prod.mk.inj hgreedy
      obtain ⟨v, more, left', hcalls, hbetween, hlast, hleft⟩ :=
        ih hreads.left hmanageable' (hfirst.length_left_lt hfuel) rfl
          (Nat.le_of_succ_le_succ hcount)
      refine ⟨v, taken ++ more, left', ?_, hfirst.trans hbetween, hlast, hleft⟩
      apply (bind_of_ok hresult).trans
      exact (bind_of_ok hcalls).trans rfl
    | overlong hn hlimit _ _ _ _ =>
      rw [greedy_of_overlong hn hlimit] at hgreedy
      obtain ⟨rfl, rfl⟩ := Prod.mk.inj hgreedy
      cases hcount
    | more hwaits _ =>
      rw [greedy_of_waits hwaits] at hgreedy
      obtain ⟨rfl, rfl⟩ := Prod.mk.inj hgreedy
      cases hcount

/-- A series of calls stops with the first of them that fails. -/
theorem receiveMessages_of_error {count : Nat} {messages : List Bytes} {e : Stop}
    (h : receiveMessages fuel count s = .ok messages t) (he : receiveMessage fuel t = .error e u) :
    receiveMessages fuel (count + 1) s = .error e u := by
  induction count generalizing s messages with
  | zero =>
    obtain ⟨-, rfl⟩ := pure_eq_ok_iff.1 h
    exact bind_of_error he
  | succ count ih =>
    obtain ⟨m, v, hm, h⟩ := bind_eq_ok_iff.1 h
    obtain ⟨ms, w, hms, h⟩ := bind_eq_ok_iff.1 h
    obtain ⟨-, rfl⟩ := pure_eq_ok_iff.1 h
    exact (bind_of_ok hm).trans (bind_of_error (ih hms))

/-- After the last message of the split a call is refused, or it waits for more. -/
theorem outcome_of_no_message {fragments : List Bytes} {rest : Bytes} (h : Brings s fragments u)
    (hmanageable : Manageable s.connection.handshakeBuffer) (hfuel : fragments.length < fuel)
    (hgreedy : greedy (s.connection.handshakeBuffer ++ fragments.flatten) = ([], rest)) :
    (∃ n t taken left, announced rest = some n ∧ messageLimit < n ∧
      receiveMessage fuel s = .error (.failed (.tooLong n messageLimit)) t ∧
      Between s t u [] taken left fragments) ∨
    (Waits rest ∧
      receiveMessage fuel s = receiveMessage (fuel - fragments.length) (u.buffering rest)) := by
  cases receiveMessage_outcome h hmanageable hfuel with
  | message hn hlimit hle _ _ _ _ _ =>
    rw [greedy_of_complete hn hlimit hle] at hgreedy
    cases (Prod.mk.inj hgreedy).1
  | overlong hn hlimit hresult hparts hreads hbytes =>
    rw [greedy_of_overlong hn hlimit] at hgreedy
    obtain ⟨-, rfl⟩ := Prod.mk.inj hgreedy
    exact .inl ⟨_, _, _, _, hn, hlimit, hresult, hparts, hreads, hbytes.symm⟩
  | more hwaits hresult =>
    rw [greedy_of_waits hwaits] at hgreedy
    obtain ⟨-, rfl⟩ := Prod.mk.inj hgreedy
    exact .inr ⟨hwaits, hresult⟩

/-- Handshake messages do not depend on how their bytes are split over records. From an empty buffer
successive calls give the messages of the `greedy` split, each complete and within the limit,
whatever fragments bring the bytes; what was handed out and what is buffered are at any time the
fragments that were read. After these messages a header that announces too much is an error, and
otherwise the next call has all the fragments in its buffer and waits for more. -/
theorem messages_independent_of_boundaries (fuel : Nat) {fragments : List Bytes} {bytes : Bytes}
    (hempty : s.connection.handshakeBuffer = []) (h : Brings s fragments u)
    (hbytes : fragments.flatten = bytes) (hfuel : fragments.length < fuel) :
    (greedy bytes).1.flatten ++ (greedy bytes).2 = bytes ∧
    (∀ m ∈ (greedy bytes).1, completeLength m = some m.length ∧ m.length ≤ 65536) ∧
    (∀ count ≤ (greedy bytes).1.length, ∃ t taken left,
      receiveMessages fuel count s = .ok ((greedy bytes).1.take count) t ∧
      taken ++ left = fragments ∧ Brings s taken (t.buffering []) ∧
      ((greedy bytes).1.take count).flatten ++ t.connection.handshakeBuffer = taken.flatten) ∧
    (∀ n, announced (greedy bytes).2 = some n → 65536 < n → ∃ t taken left,
      receiveMessages fuel ((greedy bytes).1.length + 1) s =
        .error (.failed (.tooLong n 65536)) t ∧
      taken ++ left = fragments ∧ Brings s taken (t.buffering []) ∧
      (greedy bytes).1.flatten ++ t.connection.handshakeBuffer = taken.flatten) ∧
    ((∀ n, announced (greedy bytes).2 = some n → n ≤ 65536) → ∃ t left,
      receiveMessages fuel (greedy bytes).1.length s = .ok (greedy bytes).1 t ∧
      Brings t left (u.buffering t.connection.handshakeBuffer) ∧
      receiveMessage fuel t =
        receiveMessage (fuel - left.length) (u.buffering (greedy bytes).2)) := by
  have hbuffer : Manageable s.connection.handshakeBuffer := hempty ▸ manageable_nil
  have hgreedy : greedy (s.connection.handshakeBuffer ++ fragments.flatten) =
      ((greedy bytes).1, (greedy bytes).2) := by
    rw [hempty, List.nil_append, hbytes]
  -- What is between the calls is stated for any buffer; here nothing was buffered at first.
  have hstate {t : Session τ ρ} {messages taken left : List Bytes}
      (hb : Between s t u messages taken left fragments) :
      taken ++ left = fragments ∧ Brings s taken (t.buffering []) ∧
        messages.flatten ++ t.connection.handshakeBuffer = taken.flatten := by
    have htaken := hb.reads.taken
    have hflat := hb.bytes
    rw [hempty] at htaken hflat
    exact ⟨hb.parts, htaken, hflat⟩
  obtain ⟨hwhole, hmessages, -⟩ := greedy_spec bytes
  obtain ⟨t, taken, left, hcalls, hbetween, hlast, hleft⟩ :=
    receiveMessages_greedy h hbuffer hfuel hgreedy (Nat.le_refl _)
  rw [List.take_length] at hcalls hbetween
  rw [List.drop_length] at hleft
  have hnext := outcome_of_no_message hbetween.reads.left hlast (hbetween.length_left_lt hfuel)
    hleft
  refine ⟨hwhole, hmessages, ?_, ?_, ?_⟩
  · intro count hcount
    obtain ⟨t, taken, left, hcalls, hbetween, -, -⟩ :=
      receiveMessages_greedy h hbuffer hfuel hgreedy hcount
    exact ⟨t, taken, left, hcalls, hstate hbetween⟩
  · intro n hn hlimit
    rcases hnext with hlong | hmore
    · obtain ⟨k, v, more, left', hk, -, herror, hb⟩ := hlong
      obtain rfl := Option.some.inj (hn.symm.trans hk)
      have hend := hstate (hbetween.trans hb)
      rw [List.append_nil] at hend
      exact ⟨v, taken ++ more, left', receiveMessages_of_error hcalls herror, hend⟩
    · exact absurd (hmore.1 n hn).2 (Nat.not_le.2 hlimit)
  · intro hn
    rcases hnext with hlong | hmore
    · obtain ⟨k, v, later, left', hk, hlimit, -, -⟩ := hlong
      exact absurd (hn k hk) (Nat.not_le.2 hlimit)
    · exact ⟨t, left, hcalls, hbetween.reads.left, hmore.2⟩

/-- A session that three handshake records are on the way to, one of them empty. They bring an end
of hello and the header of a message that has one byte more than a message may have. -/
def threeRecords : Session Simulation.Tape ScriptedSource :=
  { transport := ⟨[[22, 3, 3, 0, 3, 14, 0, 0, 22, 3], [3, 0, 0, 22, 3, 3, 0, 5, 0, 2, 0, 255, 253]]⟩
    config := { Config.standard with pollLimit := 2, pollLimit_pos := by decide }
    random := .ofBytes []
    lastAlert := none
    connection := { Connection.fresh with link := some ⟨7⟩ } }

/-- The three records bring one message and then a refusal. -/
theorem threeRecords_split :
    ∃ u, threeRecords.connection.handshakeBuffer = [] ∧
      Brings threeRecords [[14, 0, 0], [], [0, 2, 0, 255, 253]] u ∧
      (∃ t, receiveMessages 4 1 threeRecords = .ok [[14, 0, 0, 0]] t) ∧
      ∃ t, receiveMessages 4 2 threeRecords = .error (.failed (.tooLong 65537 65536)) t := by
  have hbrings : ∃ u, Brings threeRecords [[14, 0, 0], [], [0, 2, 0, 255, 253]] u := by
    apply Exists.intro
    apply Brings.cons (r := ⟨.handshake, .tls12, [14, 0, 0]⟩) rfl rfl
    apply Brings.cons (r := ⟨.handshake, .tls12, []⟩) rfl rfl
    apply Brings.cons (r := ⟨.handshake, .tls12, [0, 2, 0, 255, 253]⟩) rfl rfl
    exact Brings.nil _
  obtain ⟨u, hu⟩ := hbrings
  have hbytes : [[14, 0, 0], [], [0, 2, 0, 255, 253]].flatten =
      ([14, 0, 0, 0, 2, 0, 255, 253] : Bytes) := rfl
  have hgreedy : greedy [14, 0, 0, 0, 2, 0, 255, 253] = ([[14, 0, 0, 0]], [2, 0, 255, 253]) := by
    rw [greedy_of_complete (n := 4) rfl (by decide) (by decide)]
    rw [greedy_of_overlong (n := 65537) rfl (by decide)]
    rfl
  obtain ⟨-, -, hmessages, hlong, -⟩ :=
    messages_independent_of_boundaries 4 rfl hu hbytes (by decide)
  rw [hgreedy] at hmessages hlong
  obtain ⟨t, _, _, hone, -⟩ := hmessages 1 (by decide)
  obtain ⟨v, _, _, htwo, -⟩ := hlong 65537 rfl (by decide)
  exact ⟨u, rfl, hu, ⟨t, hone⟩, v, htwo⟩

end TlsClient.Session
