import Mathlib.Data.List.DropRight
import Mathlib.Data.List.Nodup
import TlsClient.Error

namespace TlsClient

namespace Event

def handshake : List Event :=
  [.sendClientHello, .serverHello, .certificate, .serverHelloDone, .sendClientKeyExchange,
    .sendChangeCipherSpec, .sendFinished, .serverFinished]

/-- The last events of a history, back to the last closing. -/
def sinceClose (history : List Event) : List Event :=
  history.rtakeWhile (· ≠ .close)

theorem nodup_handshake : handshake.Nodup := by
  decide

theorem fail_not_mem_handshake : .fail ∉ handshake := by
  decide

/-- Closing forgets what happened before it. -/
theorem sinceClose_concat (history : List Event) (e : Event) :
    sinceClose (history ++ [e]) = if e = .close then [] else sinceClose history ++ [e] := by
  rw [sinceClose, List.rtakeWhile_concat, sinceClose]
  by_cases he : e = .close
  · simp [he]
  · simp [he]

/-- Events without a closing among them are all still there. -/
theorem suffix_sinceClose (before : List Event) {piece : List Event} (h : .close ∉ piece) :
    piece <:+ sinceClose (before ++ piece) := by
  induction piece using List.reverseRecOn with
  | nil => exact List.nil_suffix
  | append_singleton piece e ih =>
    rw [List.mem_append, List.mem_singleton, not_or] at h
    rw [← List.append_assoc, sinceClose_concat, if_neg (Ne.symm h.2)]
    obtain ⟨earlier, hearlier⟩ := ih h.1
    exact ⟨earlier, by rw [← hearlier, List.append_assoc]⟩

end Event

namespace State

open Event

variable {s t : State} {e : Event} {es recent history piece : List Event}

def step (s : State) (e : Event) : State :=
  match s.next e with
  | .ok t => t
  | .error _ => s

def run (s : State) (es : List Event) : State :=
  es.foldl step s

/-- The events that are accepted of those that come one after the other. -/
def accepted : State → List Event → List Event
  | _, [] => []
  | s, e :: es =>
    match s.next e with
    | .ok t => e :: accepted t es
    | .error _ => accepted s es

def passed : State → List Event
  | .init | .error => []
  | .clientHelloSent => handshake.take 1
  | .serverHelloReceived => handshake.take 2
  | .certificateReceived => handshake.take 3
  | .serverHelloDoneReceived => handshake.take 4
  | .clientKeyExchangeSent => handshake.take 5
  | .changeCipherSpecSent => handshake.take 6
  | .finishedSent => handshake.take 7
  | .established => handshake

/-- A state is reached by the first events of a handshake. -/
theorem passed_begins (s : State) : s.passed <+: handshake := by
  cases s <;> decide

/-- Only the whole handshake leads to an established connection. -/
theorem passed_eq_handshake_iff : s.passed = handshake ↔ s = .established := by
  cases s <;> decide

theorem isEstablished_iff : s.isEstablished = true ↔ s = .established := by
  cases s <;> decide

theorem next_eq_ok_iff : s.next e = .ok t ↔ s.next? e = some t := by
  rw [next]
  cases s.next? e with
  | none => simp
  | some u => simp

/-- An event that is accepted is a failure, a closing or the next one of the handshake. -/
theorem next?_eq_some (h : s.next? e = some t) :
    e = .fail ∧ t = .error ∨ e = .close ∧ t = .init ∨
      e ≠ .close ∧ s ≠ .error ∧ t ≠ .error ∧ t.passed = s.passed ++ [e] := by
  fun_cases next? s e with
  | case1 s => exact .inl ⟨rfl, (Option.some.inj h).symm⟩
  | case2 s => exact .inr (.inl ⟨rfl, (Option.some.inj h).symm⟩)
  | case11 => simp_all [next?]
  | _ =>
    -- Each row of the handshake adds its own event.
    obtain rfl := Option.some.inj h
    exact .inr (.inr ⟨nofun, nofun, nofun, rfl⟩)

/-- Beside failure and closing, only the next event of the handshake is accepted. -/
theorem isSome_next?_iff (hs : s ≠ .error) :
    (s.next? e).isSome ↔ e = .fail ∨ e = .close ∨ s.passed ++ [e] <+: handshake := by
  revert hs
  cases s <;> cases e <;> decide

/-- After a failure nothing is accepted but a failure and closing. -/
theorem isSome_next?_error_iff : (State.error.next? e).isSome ↔ e = .fail ∨ e = .close := by
  cases e <;> decide

/-- What was accepted since the last closing, and the state that it leads to. -/
inductive LeadsTo : List Event → State → Prop where
  | underway {s : State} (hs : s ≠ .error) : LeadsTo s.passed s
  /-- The first failure came in the state `s`. -/
  | failed (s : State) (k : ℕ) : LeadsTo (s.passed ++ List.replicate (k + 1) .fail) .error

/-- What led to a state and one event of more lead to the next state. -/
theorem LeadsTo.next (h : LeadsTo recent s) (hnext : s.next? e = some t) :
    LeadsTo (if e = .close then [] else recent ++ [e]) t := by
  rcases next?_eq_some hnext with ⟨rfl, rfl⟩ | ⟨rfl, rfl⟩ | ⟨hclose, hs, ht, hpassed⟩
  · rw [if_neg nofun]
    cases h with
    | underway hs => exact .failed s 0
    | failed s k =>
      rw [List.append_assoc, ← List.replicate_succ']
      exact .failed s (k + 1)
  · exact .underway (s := .init) nofun
  · rw [if_neg hclose]
    cases h with
    | underway => exact hpassed ▸ .underway ht
    | failed s k => exact absurd rfl hs

theorem LeadsTo.eq_established_iff (h : LeadsTo recent s) :
    s = .established ↔ recent = handshake := by
  cases h with
  | underway hs => exact passed_eq_handshake_iff.symm
  | failed s k =>
    refine iff_of_false nofun fun heq => fail_not_mem_handshake ?_
    rw [← heq]
    simp

/-- What is accepted next is a failure, a closing or what makes a longer beginning of a handshake. -/
theorem LeadsTo.accepts_iff (h : LeadsTo recent s) :
    (s.next? e).isSome ↔ e = .fail ∨ e = .close ∨ recent ++ [e] <+: handshake := by
  cases h with
  | underway hs => exact isSome_next?_iff hs
  | failed s k =>
    have hnot : ¬ s.passed ++ List.replicate (k + 1) .fail ++ [e] <+: handshake := fun hbegins =>
      fail_not_mem_handshake (hbegins.subset (by simp))
    rw [isSome_next?_error_iff, or_iff_left hnot]

/-- By induction on the events, every state is the one that the accepted events lead to. -/
theorem leadsTo_run (h : LeadsTo (sinceClose history) s) (es : List Event) :
    LeadsTo (sinceClose (history ++ s.accepted es)) (s.run es) := by
  -- The history grows by the events that are accepted, and the state goes along with it.
  induction es generalizing history s with
  | nil =>
    rw [accepted, List.append_nil]
    exact h
  | cons e es ih =>
    rw [run, List.foldl_cons, step, accepted]
    cases hnext : s.next e with
    | error fault => exact ih h
    | ok t =>
      have hstep := h.next (next_eq_ok_iff.1 hnext)
      rw [← sinceClose_concat] at hstep
      have hmore := ih hstep
      rwa [List.append_assoc] at hmore

theorem leadsTo_run_init (es : List Event) :
    LeadsTo (sinceClose (State.init.accepted es)) (State.init.run es) := by
  have hstart : LeadsTo (sinceClose []) .init := .underway (s := .init) nofun
  exact leadsTo_run hstart es

/-- What was accepted up to some time is what was accepted of fewer events. -/
theorem exists_accepted_eq (h : history <+: s.accepted es) : ∃ es', s.accepted es' = history := by
  induction es generalizing s history with
  | nil => exact ⟨[], (List.prefix_nil.1 h).symm⟩
  | cons e es ih =>
    rw [accepted] at h
    cases hnext : s.next e with
    | error fault =>
      rw [hnext] at h
      exact ih h
    | ok t =>
      rw [hnext] at h
      rcases List.prefix_cons_iff.1 h with rfl | ⟨later, rfl, hlater⟩
      · exact ⟨[], rfl⟩
      · obtain ⟨es', hes'⟩ := ih hlater
        exact ⟨e :: es', by rw [accepted, hnext, ← hes']⟩

/-- Between two closings there is the beginning of a handshake, and failures behind it. -/
theorem exists_suffix_passed (h : piece <:+: State.init.accepted es) (hclose : .close ∉ piece) :
    ∃ (s : State) (k : ℕ), piece <:+ s.passed ++ List.replicate k .fail := by
  -- What was accepted up to the end of the piece leads to a state, and the piece is the end of it.
  obtain ⟨before, behind, heq⟩ := h
  obtain ⟨es', hes'⟩ := exists_accepted_eq ⟨behind, heq⟩
  have hleads := leadsTo_run_init es'
  have hsuffix := suffix_sinceClose before hclose
  rw [hes'] at hleads
  generalize sinceClose (before ++ piece) = recent at hleads hsuffix
  generalize State.init.run es' = s at hleads
  cases hleads with
  | underway hs => exact ⟨_, 0, by rwa [List.replicate_zero, List.append_nil]⟩
  | failed s k => exact ⟨s, k + 1, hsuffix⟩

/-- Between two closings the events of a handshake are accepted in their order. -/
theorem filter_infix_handshake (h : piece <:+: State.init.accepted es) (hclose : .close ∉ piece) :
    piece.filter (· ≠ .fail) <:+: handshake := by
  obtain ⟨s, k, hsuffix⟩ := exists_suffix_passed h hclose
  have hpassed : s.passed.filter (· ≠ .fail) = s.passed := by
    refine List.filter_eq_self.2 fun e he => decide_eq_true ?_
    rintro rfl
    exact fail_not_mem_handshake (s.passed_begins.subset he)
  have hfilter := hsuffix.filter (· ≠ .fail)
  rw [List.filter_append, hpassed, List.filter_replicate, if_neg (by decide), List.append_nil]
    at hfilter
  exact hfilter.isInfix.trans s.passed_begins.isInfix

/-- None of them is accepted twice. -/
theorem count_le_one (h : piece <:+: State.init.accepted es) (hclose : .close ∉ piece)
    (he : e ≠ .fail) : piece.count e ≤ 1 := by
  calc piece.count e = (piece.filter (· ≠ .fail)).count e :=
        (List.count_filter (p := fun x => decide (x ≠ .fail)) (a := e) (decide_eq_true he)).symm
    _ ≤ handshake.count e := (filter_infix_handshake h hclose).sublist.count_le e
    _ ≤ 1 := List.nodup_iff_count_le_one.1 nodup_handshake e

/-- Once there was a failure, there are only failures up to the next closing. -/
theorem eq_fail_of_mem (h : .fail :: piece <:+: State.init.accepted es) (hclose : .close ∉ piece)
    (he : e ∈ piece) : e = .fail := by
  have hclose' : .close ∉ Event.fail :: piece := by simp [hclose]
  obtain ⟨s, k, earlier, heq⟩ := exists_suffix_passed h hclose'
  have hmem : e ∈ Event.fail :: piece := List.mem_cons_of_mem _ he
  rcases List.append_eq_append_iff.1 heq with ⟨passed, hpassed, hpiece⟩ | ⟨fails, -, hfails⟩
  · cases passed with
    | nil =>
      rw [hpiece] at hmem
      exact List.eq_of_mem_replicate hmem
    | cons first rest =>
      -- The first failure would be one of the events of the handshake.
      obtain rfl := (List.cons.inj hpiece).1
      have hmem : .fail ∈ s.passed := by simp [hpassed]
      exact absurd (s.passed_begins.subset hmem) fail_not_mem_handshake
  · exact List.eq_of_mem_replicate (hfails ▸ List.mem_append_right fails hmem)

/-- A connection is established exactly if the events accepted since the last closing, or since the
start, are those of a handshake, each once and in their order. A failure and a closing are accepted at
any time, and of the events of a handshake only the one that comes next after those since the last
closing. So without a closing in between none of them is accepted twice, none out of order, and after a
failure nothing but failures. -/
theorem established_iff_handshake (es : List Event) :
    ((State.init.run es).isEstablished = true ↔
      sinceClose (State.init.accepted es) = handshake) ∧
    (∀ e, (∃ t, (State.init.run es).next e = .ok t) ↔
      e = .fail ∨ e = .close ∨ sinceClose (State.init.accepted es) ++ [e] <+: handshake) ∧
    (∀ piece, piece <:+: State.init.accepted es → .close ∉ piece →
      piece.filter (· ≠ .fail) <:+: handshake ∧ ∀ e ≠ .fail, piece.count e ≤ 1) ∧
    (∀ piece, .fail :: piece <:+: State.init.accepted es → .close ∉ piece →
      ∀ e ∈ piece, e = .fail) := by
  have hleads := leadsTo_run_init es
  refine ⟨?_, fun e => ?_, fun piece h hclose => ?_, fun piece h hclose e he => ?_⟩
  · rw [← hleads.eq_established_iff, isEstablished_iff]
  · rw [← hleads.accepts_iff, Option.isSome_iff_exists]
    exact exists_congr fun t => next_eq_ok_iff
  · exact ⟨filter_infix_handshake h hclose, fun e he => count_le_one h hclose he⟩
  · exact eq_fail_of_mem h hclose he

def interrupted : List Event :=
  [.serverHello, .sendClientHello, .certificate, .fail, .sendFinished, .fail, .close] ++
    handshake ++ [.sendClientHello]

/-- After a failed start and a closing the handshake goes through, and a second one is rejected. -/
theorem interrupted_established :
    State.init.accepted interrupted = [.sendClientHello, .fail, .fail, .close] ++ handshake ∧
    (State.init.run interrupted).isEstablished = true ∧
    ¬ (∃ t, (State.init.run interrupted).next .sendClientHello = .ok t) ∧
    (handshake <:+: State.init.accepted interrupted ∧ .close ∉ handshake ∧
      handshake.count .serverHello ≤ 1) ∧
    ([.fail, .fail] <:+: State.init.accepted interrupted ∧ .close ∉ [Event.fail] ∧
      ∀ e ∈ [Event.fail], e = .fail) := by
  have haccepted : State.init.accepted interrupted =
      [.sendClientHello, .fail, .fail, .close] ++ handshake := by decide
  have hwhole : handshake <:+: State.init.accepted interrupted := by
    rw [haccepted]
    exact (List.suffix_append _ _).isInfix
  have hfailures : [.fail, .fail] <:+: State.init.accepted interrupted :=
    ⟨[.sendClientHello], .close :: handshake, haccepted.symm⟩
  have hclose : Event.close ∉ handshake := by decide
  obtain ⟨hestablished, haccepts, hpiece, hfailed⟩ := established_iff_handshake interrupted
  refine ⟨haccepted, hestablished.2 (by decide), ?_,
    ⟨hwhole, hclose, (hpiece _ hwhole hclose).2 _ (by decide)⟩,
    hfailures, by decide, hfailed _ hfailures (by decide)⟩
  rw [haccepts]
  decide

end State
end TlsClient
