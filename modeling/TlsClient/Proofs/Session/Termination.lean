import TlsClient.Proofs.Session.Completion
import TlsClient.Proofs.Session.Supply
import TlsClient.Proofs.Session.Takings

/-!
Handshakes and calls end. Each pass of a loop ends it, takes a record off the stream or takes a message
out of the handshake buffer, so over a transport that supplies a limited number of bytes patience runs
out only if there was too little of it, and any more of it makes no difference. Main statement:
`calls_conclude`.
-/

namespace TlsClient.Session

open Network Simulation

variable {τ ρ α β : Type}

/-! ### Enough patience -/

/-- With any patience from `k` on the action comes to the same, and does not stop for want of it. -/
structure Concludes (k : Nat) (a : Nat → Action τ ρ α) (s : Session τ ρ)
    (Q : α → Session τ ρ → Prop) (E : Stop → Session τ ρ → Prop) : Prop where
  same : ∀ fuel, k ≤ fuel → a fuel s = a k s
  ends : Ends (a k) s Q (fun e t => e ≠ .unfinished ∧ E e t)

/-- With any patience from `k` on the action is at an end, or goes on with the loop. -/
def Pass (k : Nat) (loop a : Nat → Action τ ρ α) (s : Session τ ρ) (Q : α → Session τ ρ → Prop)
    (E : Stop → Session τ ρ → Prop) (N : Session τ ρ → Prop) : Prop :=
  Concludes k a s Q E ∨ ∃ t, N t ∧ ∀ fuel, k ≤ fuel → a fuel s = loop fuel t

section
variable {k : Nat} {a loop : Nat → Action τ ρ α} {s t : Session τ ρ} {Q Q' : α → Session τ ρ → Prop}
  {E E' : Stop → Session τ ρ → Prop} {N : Session τ ρ → Prop}

namespace Concludes

/-- An action without a loop concludes if it never stops for want of patience. -/
theorem of_ends {a : Action τ ρ α} (k : Nat)
    (h : Ends a s Q fun e t => e ≠ .unfinished ∧ E e t) : Concludes k (fun _ => a) s Q E :=
  ⟨fun _ _ => rfl, h⟩

/-- What comes to the same as something at an end is at an end. -/
theorem of_eq {b : Nat → Action τ ρ α} (h : Concludes k b t Q E)
    (heq : ∀ fuel, k ≤ fuel → a fuel s = b fuel t) : Concludes k a s Q E where
  same fuel hfuel := by rw [heq fuel hfuel, heq k (Nat.le_refl k), h.same fuel hfuel]
  ends := h.ends.of_eq (heq k (Nat.le_refl k))

theorem mono (h : Concludes k a s Q E) (hq : ∀ x t, Q x t → Q' x t) (he : ∀ e t, E e t → E' e t) :
    Concludes k a s Q' E' :=
  ⟨h.same, h.ends.mono hq fun _ _ h => ⟨h.1, he _ _ h.2⟩⟩

/-- More patience does no harm. -/
theorem of_le {k' : Nat} (h : Concludes k a s Q E) (hk : k ≤ k') : Concludes k' a s Q E where
  same fuel hfuel := by rw [h.same fuel (hk.trans hfuel), h.same k' hk]
  ends := h.ends.of_eq (h.same k' hk)

/-- A loop is one pass further when it is asked with one more. -/
theorem of_succ {loop : Nat → Action τ ρ α} (h : Concludes k (fun fuel => loop (fuel + 1)) s Q E) :
    Concludes (k + 1) loop s Q E where
  same fuel hfuel := by
    obtain ⟨fuel, rfl⟩ := Nat.exists_eq_add_of_le' (Nat.le_trans (Nat.le_add_left 1 k) hfuel)
    exact h.same fuel (Nat.le_of_succ_le_succ hfuel)
  ends := h.ends

end Concludes

/-! The first part of a sequence stops, or gives what the second part goes on with. -/

theorem Concludes.cases (h : Concludes k a s Q E) :
    (∃ e t, (e ≠ .unfinished ∧ E e t) ∧ ∀ fuel, k ≤ fuel → a fuel s = .error e t) ∨
      ∃ x t, Q x t ∧ ∀ fuel, k ≤ fuel → a fuel s = .ok x t := by
  have hends := h.ends
  unfold Ends at hends
  cases ha : a k s with
  | ok x t =>
    rw [ha] at hends
    exact .inr ⟨x, t, hends, fun fuel hfuel => (h.same fuel hfuel).trans ha⟩
  | error e t =>
    rw [ha] at hends
    exact .inl ⟨e, t, hends, fun fuel hfuel => (h.same fuel hfuel).trans ha⟩

/-- A sequence concludes if its parts do, with the same patience. -/
theorem Concludes.bind {f : α → Nat → Action τ ρ β} {R : β → Session τ ρ → Prop}
    (h : Concludes k a s (fun x t => Concludes k (f x) t R E) E) :
    Concludes k (fun fuel => a fuel >>= (f · fuel)) s R E := by
  rcases h.cases with ⟨e, t, he, hstop⟩ | ⟨x, t, hx, hnext⟩
  · have hthrow : Ends (throw e : Action τ ρ β) t R fun e t => e ≠ .unfinished ∧ E e t := he
    exact (Concludes.of_ends k hthrow).of_eq fun fuel hfuel => bind_of_error (hstop fuel hfuel)
  · exact hx.of_eq fun fuel hfuel => bind_of_ok (hnext fuel hfuel)

theorem Concludes.bind_current {f : Connection → Nat → Action τ ρ α}
    (h : Concludes k (f s.connection) s Q E) :
    Concludes k (fun fuel => current >>= (f · fuel)) s Q E :=
  h.of_eq fun _ _ => rfl

/-- Giving the connection up after a failure does not keep an action from concluding. -/
theorem Concludes.orFail (h : Concludes k a s Q E)
    (he : ∀ e t, E e t → E' e { t with connection := t.connection.failed }) :
    Concludes k (fun fuel => orFail (a fuel)) s Q E' where
  same fuel hfuel := by rw [Session.orFail, Session.orFail, h.same fuel hfuel]
  ends := orFail_ends (h.ends.mono (fun _ _ hx => hx) fun e t ht => ⟨ht.1, he e t ht.2⟩)

theorem Concludes.orSuspend (h : Concludes k a s Q E) (he : ∀ e t, E e t → E' e t)
    (hfailed : ∀ e t, E e t → E' e { t with connection := t.connection.failed }) :
    Concludes k (fun fuel => orSuspend (a fuel)) s Q E' where
  same fuel hfuel := by rw [Session.orSuspend, Session.orSuspend, h.same fuel hfuel]
  ends := by
    apply orSuspend_ends
    apply h.ends.mono (fun _ _ hx => hx)
    intro e t ht
    split
    · exact ⟨ht.1, he e t ht.2⟩
    · exact ⟨ht.1, hfailed e t ht.2⟩

namespace Pass

theorem of_eq {b : Nat → Action τ ρ α} (h : Pass k loop b t Q E N)
    (heq : ∀ fuel, k ≤ fuel → a fuel s = b fuel t) : Pass k loop a s Q E N := by
  rcases h with h | ⟨u, hu, hloop⟩
  · exact .inl (h.of_eq heq)
  · exact .inr ⟨u, hu, fun fuel hfuel => (heq fuel hfuel).trans (hloop fuel hfuel)⟩

theorem of_ends {a : Action τ ρ α} (h : Ends a s Q fun e t => e ≠ .unfinished ∧ E e t) :
    Pass k loop (fun _ => a) s Q E N :=
  .inl (.of_ends k h)

theorem next (h : N s) : Pass k loop loop s Q E N :=
  .inr ⟨s, h, fun _ _ => rfl⟩

theorem mono {Q' : α → Session τ ρ → Prop} {E' : Stop → Session τ ρ → Prop}
    {N' : Session τ ρ → Prop} (h : Pass k loop a s Q E N) (hq : ∀ x t, Q x t → Q' x t)
    (he : ∀ e t, E e t → E' e t) (hn : ∀ t, N t → N' t) : Pass k loop a s Q' E' N' := by
  rcases h with h | ⟨t, ht, hloop⟩
  · exact .inl (h.mono hq he)
  · exact .inr ⟨t, hn t ht, hloop⟩

/-- A pass may begin with a loop of its own that concludes. -/
theorem bind {a : Nat → Action τ ρ β} {f : β → Nat → Action τ ρ α}
    (h : Concludes k a s (fun x t => Pass k loop (f x) t Q E N) E) :
    Pass k loop (fun fuel => a fuel >>= (f · fuel)) s Q E N := by
  rcases h.cases with ⟨e, t, he, hstop⟩ | ⟨x, t, hx, hnext⟩
  · have hthrow : Ends (throw e : Action τ ρ α) t Q fun e t => e ≠ .unfinished ∧ E e t := he
    exact (of_ends hthrow).of_eq fun fuel hfuel => bind_of_error (hstop fuel hfuel)
  · exact hx.of_eq fun fuel hfuel => bind_of_ok (hnext fuel hfuel)

theorem bind_ends {a : Action τ ρ β} {f : β → Nat → Action τ ρ α}
    (h : Ends a s (fun x t => Pass k loop (f x) t Q E N) fun e t => e ≠ .unfinished ∧ E e t) :
    Pass k loop (fun fuel => a >>= (f · fuel)) s Q E N :=
  .bind (.of_ends k h)

theorem bind_current {f : Connection → Nat → Action τ ρ α}
    (h : Pass k loop (f s.connection) s Q E N) :
    Pass k loop (fun fuel => current >>= (f · fuel)) s Q E N :=
  h.of_eq fun _ _ => rfl

end Pass

/-- A loop is at an end after as many passes as something can get smaller. -/
theorem concludes_of_pass (loop : Nat → Action τ ρ α) {P : Session τ ρ → Prop} {M : Session τ ρ → Nat}
    {Q : Session τ ρ → α → Session τ ρ → Prop} {E : Session τ ρ → Stop → Session τ ρ → Prop}
    (hpass : ∀ s, P s → Pass k loop (fun fuel => loop (fuel + 1)) s (Q s) (E s) fun t =>
      P t ∧ M t < M s ∧ (∀ x u, Q t x u → Q s x u) ∧ ∀ e u, E t e u → E s e u)
    (s : Session τ ρ) (hs : P s) : Concludes (k + M s + 1) loop s (Q s) (E s) := by
  induction hsize : M s using Nat.strongRecOn generalizing s with
  | ind n ih =>
    subst hsize
    rcases hpass s hs with h | ⟨t, ⟨ht, hless, hq, he⟩, hloop⟩
    · exact (h.of_le (Nat.le_add_right k _)).of_succ
    · have hrest := ((ih (M t) hless t ht rfl).mono hq he).of_le
        (show k + M t + 1 ≤ k + M s by omega)
      refine (hrest.of_eq (a := fun fuel => loop (fuel + 1)) fun fuel hfuel => ?_).of_succ
      exact hloop fuel ((Nat.le_add_right k _).trans hfuel)

end

/-! ### What is left of the stream -/

section
variable [Transport τ] [RandomSource ρ] {s t u : Session (Recorded τ) ρ} {records : List Record}
  {total : Nat}

def unread (total : Nat) (s : Session (Recorded τ) ρ) : Nat :=
  s.connection.reader.buffer.length + (total - s.transport.received.length)

omit [Transport τ] [RandomSource ρ] in
theorem unread_of_supplies (n : Nat) (s : Session (Recorded τ) ρ) :
    unread (s.transport.received.length + n) s = s.connection.reader.buffer.length + n := by
  rw [unread, Nat.add_sub_cancel_left]

/-- Each record on the wire takes five bytes at least. -/
theorem length_wire_ge (records : List Record) :
    RecordHeader.byteLength * records.length ≤ (wire records).length := by
  induction records with
  | nil => exact Nat.le_refl _
  | cons record records ih =>
    have hcons : wire (record :: records) = record.toBytes ++ wire records := rfl
    rw [hcons, List.length_append, Record.length_toBytes, List.length_cons, Nat.mul_succ]
    omega

theorem Takes.endsBy (h : Takes records s t) (hs : EndsBy total s.transport) :
    EndsBy total t.transport := by
  obtain ⟨uses, huses⟩ := h.uses
  rw [huses]
  exact hs.after uses

/-- What was taken is what there is less of. -/
theorem Takes.unread_add (h : Takes records s t) (hs : EndsBy total s.transport) :
    unread total t + (wire records).length = unread total s := by
  obtain ⟨arrived, hreceived, hreader⟩ := h.arrival
  have htotal : t.transport.received.length ≤ total := h.endsBy hs []
  have hlength := congrArg List.length hreader
  rw [hreceived, List.length_append] at htotal
  rw [List.length_append, List.length_append] at hlength
  rw [unread, unread, hreceived, List.length_append]
  omega

/-- Every record that was taken had five bytes or more. -/
theorem Takes.length_le (h : Takes records s t) (hs : EndsBy total s.transport) :
    5 * records.length ≤ unread total s := by
  have hread := h.unread_add hs
  have hwire : 5 * records.length ≤ (wire records).length := length_wire_ge records
  omega

/-- A record more is room for a record less. -/
theorem Takes.unread_div_lt {record : Record} (h : Takes [record] s t)
    (hs : EndsBy total s.transport) : unread total t / 5 < unread total s / 5 := by
  have hread := h.unread_add hs
  have hlength : 5 ≤ (wire [record]).length := length_wire_ge [record]
  omega

theorem Took.endsBy (h : Took s t) (hs : EndsBy total s.transport) : EndsBy total t.transport := by
  obtain ⟨records, h⟩ := h
  exact h.endsBy hs

/-- Taking records leaves less to read, never more. -/
theorem Took.unread_le (h : Took s t) (hs : EndsBy total s.transport) :
    unread total t ≤ unread total s := by
  obtain ⟨records, h⟩ := h
  exact Nat.le.intro (h.unread_add hs)

def unprocessed (total : Nat) (s : Session (Recorded τ) ρ) : Nat :=
  unread total s + s.connection.handshakeBuffer.length

theorem Took.unprocessed_le (h : Took s t) (hs : EndsBy total s.transport) :
    unprocessed total t ≤ unprocessed total s := by
  obtain ⟨records, h⟩ := h
  have hread := h.unread_add hs
  have hbuffered := h.buffered
  rw [unprocessed, unprocessed]
  omega

/-- A message with its header was taken out of the handshake buffer, and the stream was left alone. -/
structure Removes (message : Bytes) (s t : Session (Recorded τ) ρ) : Prop where
  transport : t.transport = s.transport
  random : RandomSource.Leads s.random t.random
  reader : t.connection.reader = s.connection.reader
  handshakeBuffer : s.connection.handshakeBuffer = message ++ t.connection.handshakeBuffer
  length_ge : 4 ≤ message.length

theorem Removes.took {message : Bytes} (h : Removes message s t) : Took s t := by
  refine ⟨[], .of_same h.transport h.random h.reader ?_⟩
  rw [h.handshakeBuffer, List.length_append]
  exact Nat.le_add_left _ _

omit [Transport τ] in
theorem Removes.trans_still {message : Bytes} (h : Removes message s t) (h' : Still t u) :
    Removes message s u where
  transport := h'.transport.trans h.transport
  random := h.random.trans h'.random
  reader := h'.reader.trans h.reader
  handshakeBuffer := by rw [h.handshakeBuffer, h'.handshakeBuffer]
  length_ge := h.length_ge

omit [Transport τ] in
/-- A message that is taken out leaves at least four bytes less to process. -/
theorem Removes.unprocessed_lt {message : Bytes} (h : Removes message s t) (total : Nat) :
    unprocessed total t + 4 ≤ unprocessed total s := by
  have hlong := h.length_ge
  rw [unprocessed, unprocessed, unread, unread, h.transport, h.reader, h.handshakeBuffer,
    List.length_append]
  omega

/-! ### The passes of each loop -/

/-- A pass of the loop for messages takes a message out of the buffer, which is the end of it, fails,
or goes on after it has taken one record off the stream. -/
theorem receiveMessage_pass (s : Session (Recorded τ) ρ) :
    Pass 0 receiveMessage (fun fuel => receiveMessage (fuel + 1)) s
      (fun message t => Removes message s t) (fun _ t => Took s t)
      (fun t => ∃ record, Takes [record] s t) := by
  apply Pass.bind_current
  cases hn : Handshake.completeLength s.connection.handshakeBuffer with
  | some n =>
    obtain ⟨header, rest, -, rfl, hle⟩ := Handshake.completeLength_eq_some_iff.1 hn
    simp only [hn]
    refine Pass.of_ends (Ends.bind_update (ends_pure ?_))
    refine ⟨rfl, .refl _, rfl, (List.take_append_drop _ _).symm, ?_⟩
    rw [List.length_take, Nat.min_eq_left hle]
    exact Nat.le_add_right 4 _
  | none =>
    simp only [hn]
    apply Pass.bind_ends
    refine (Quiet.checkAnnounced _ s).mono (fun _ t hstill => ?_) fun _ _ h => ⟨h.1, h.2.took⟩
    apply Pass.bind_ends
    refine (receive_takes t).mono ?_ fun _ _ h => ⟨h.1, hstill.took.trans h.2⟩
    rintro r u ⟨record, htakes, hshort, hbuffer⟩
    have hrecord : Takes [record] s u := hstill.takes.trans htakes
    cases hkind : r.contentType with
    | handshake =>
      dsimp only
      refine Pass.bind_ends (ends_update (Pass.next ⟨record, ?_⟩))
      -- The content that is added to the buffer is part of the record that was taken.
      refine ⟨hrecord.acceptable, hrecord.uses, hrecord.draws, hrecord.arrival, ?_⟩
      rw [wire_singleton, Record.length_toBytes, List.length_append, hbuffer,
        hstill.handshakeBuffer, List.length_singleton]
      omega
    | alert =>
      exact Pass.of_ends ((Quiet.heed_stops _ u).mono (fun _ _ h => h) fun _ _ h =>
        ⟨h.1, _, hrecord.trans h.2.takes⟩)
    | _ => exact Pass.of_ends (ends_fail ⟨Stop.noConfusion, _, hrecord⟩)

/-- A pass of the loop for application data brings some, which is the end of it, fails, or goes on
after it has taken one record off the stream. -/
theorem receiveData_pass (s : Session (Recorded τ) ρ) :
    Pass 0 receiveData (fun fuel => receiveData (fuel + 1)) s
      (fun _ t => ∃ record, Takes [record] s t ∧ t.connection.pending ≠ []) (fun _ t => Took s t)
      (fun t => ∃ record, Takes [record] s t) := by
  apply Pass.bind_ends
  refine (receive_takes s).mono ?_ fun _ _ h => h
  rintro r t ⟨record, htakes, -, hbuffer⟩
  cases hkind : r.contentType with
  | applicationData =>
    dsimp only
    by_cases hempty : r.fragment = []
    · simp only [hempty, if_true]
      exact Pass.next ⟨record, htakes⟩
    · simp only [hempty, if_false]
      refine Pass.of_ends (ends_update ⟨record, ?_, hempty⟩)
      exact htakes.trans (.of_same rfl (.refl _) rfl (Nat.le_refl _))
  | handshake =>
    dsimp only
    apply Pass.bind_ends
    refine ends_check (fun header _ => ?_) fun _ _ => ⟨Stop.noConfusion, _, htakes⟩
    by_cases hrequest : header.kind = .helloRequest
    · simp only [hrequest, if_true]
      exact Pass.next ⟨record, htakes⟩
    · simp only [hrequest, if_false]
      exact Pass.of_ends (Ends.bind_current (ends_fail ⟨Stop.noConfusion, _, htakes⟩))
  | alert =>
    exact Pass.of_ends ((Quiet.heed_stops _ t).mono (fun _ _ h => h) fun _ _ h =>
      ⟨h.1, _, htakes.trans h.2.takes⟩)
  | _ => exact Pass.of_ends (ends_fail ⟨Stop.noConfusion, _, htakes⟩)

omit [Transport τ] in
/-- A quiet beginning of a pass changes nothing about it. -/
theorem Pass.bind_quiet {k : Nat} {loop : Nat → Action (Recorded τ) ρ α}
    {a : Action (Recorded τ) ρ β} {f : β → Nat → Action (Recorded τ) ρ α}
    {Q : α → Session (Recorded τ) ρ → Prop} {E : Stop → Session (Recorded τ) ρ → Prop}
    {N : Session (Recorded τ) ρ → Prop} (ha : Quiet a) (he : ∀ e t, Still s t → E e t)
    (h : ∀ x t, Still s t → Pass k loop (f x) t Q E N) :
    Pass k loop (fun fuel => a >>= (f · fuel)) s Q E N :=
  .bind_ends ((ha s).mono h fun e t ht => ⟨ht.1, he e t ht.2⟩)

/-- A pass of the loop for the server's messages ends it or goes on after it has taken a message out
of the handshake buffer, if there is patience enough to receive one. -/
theorem receiveFlight_pass {k : Nat}
    (h : Concludes k receiveMessage s (fun message t => ∃ u, Took s u ∧ Removes message u t)
      fun _ t => Took s t) :
    Pass k receiveFlight (fun fuel => receiveFlight (fuel + 1)) s (fun _ t => Took s t)
      (fun _ t => Took s t) (fun t => ∃ message u, Took s u ∧ Removes message u t) := by
  apply Pass.bind
  refine h.mono ?_ fun _ _ h => h
  rintro bytes t ⟨u, hu, hremoves⟩
  have htook : ∀ v, Still t v → Took s v := fun v hv => hu.trans (hremoves.took.trans hv.took)
  have hnext : ∀ v, Still t v → ∃ message u, Took s u ∧ Removes message u v :=
    fun v hv => ⟨bytes, u, hu, hremoves.trans_still hv⟩
  apply Pass.bind_current
  apply Pass.bind_quiet (.check _) fun _ v hv => htook v hv
  intro message v hv
  by_cases hrequest : message.header.kind = .helloRequest
  · simp only [hrequest, if_true]
    exact Pass.next (hnext v hv)
  · simp only [hrequest, if_false]
    apply Pass.bind_quiet (.note bytes) fun _ w hw => htook w (hv.trans hw)
    intro _ w hw
    have hstill : Still t w := hv.trans hw
    have hstops : ∀ (_ : Stop) x, Still w x → Took s x := fun _ x hx => htook x (hstill.trans hx)
    have hquiet {a : Action (Recorded τ) ρ Unit} (ha : Quiet a) :
        Pass k receiveFlight (fun _ => a) w (fun _ t => Took s t) (fun _ t => Took s t)
          (fun t => ∃ message u, Took s u ∧ Removes message u t) :=
      Pass.of_ends ((ha w).mono (fun _ x hx => hstops .unfinished x hx) fun e x hx =>
        ⟨hx.1, hstops e x hx.2⟩)
    cases hbody : message.body with
    | serverHello hello =>
      dsimp only
      apply Pass.bind_quiet (.expect _ _) hstops fun _ x hx => ?_
      apply Pass.bind_quiet (.acceptHello hello) fun e y hy => hstops e y (hx.trans hy)
      intro _ y hy
      apply Pass.bind_quiet (.advance _) fun e z hz => hstops e z (hx.trans (hy.trans hz))
      intro _ z hz
      exact Pass.next (hnext z (hstill.trans (hx.trans (hy.trans hz))))
    | certificate chain =>
      dsimp only
      apply Pass.bind_quiet (.expect _ _) hstops fun _ x hx => ?_
      apply Pass.bind_quiet (.acceptCertificate chain) fun e y hy => hstops e y (hx.trans hy)
      intro _ y hy
      apply Pass.bind_quiet (.advance _) fun e z hz => hstops e z (hx.trans (hy.trans hz))
      intro _ z hz
      exact Pass.next (hnext z (hstill.trans (hx.trans (hy.trans hz))))
    | serverHelloDone =>
      dsimp only
      exact hquiet (.bind (.expect _ _) fun _ => .advance _)
    | _ =>
      dsimp only
      exact hquiet (.bind .current fun _ => .fail _)

/-! ### The loops end -/

/-- A message is received, or it turns out that there is none, after at most as many passes as the
unread bytes make records. -/
theorem receiveMessage_concludes (hs : EndsBy total s.transport) :
    Concludes (unread total s / 5 + 1) receiveMessage s
      (fun message t => ∃ u, Took s u ∧ Removes message u t) (fun _ t => Took s t) := by
  have hpass := concludes_of_pass (k := 0) receiveMessage
    (P := fun s : Session (Recorded τ) ρ => EndsBy total s.transport)
    (M := fun s => unread total s / 5)
    (Q := fun s message t => ∃ u, Took s u ∧ Removes message u t) (E := fun s _ t => Took s t) ?_ s hs
  · rwa [Nat.zero_add] at hpass
  intro s hs
  refine (receiveMessage_pass s).mono (fun _ t h => ⟨s, .refl s, h⟩) (fun _ _ h => h) ?_
  rintro t ⟨record, htakes⟩
  refine ⟨htakes.endsBy hs, htakes.unread_div_lt hs, ?_, fun _ u h => .trans ⟨_, htakes⟩ h⟩
  rintro message v ⟨u, hu, hremoves⟩
  exact ⟨u, .trans ⟨_, htakes⟩ hu, hremoves⟩

/-- Receiving data ends after as many passes as records can still come. -/
theorem receiveData_concludes (hs : EndsBy total s.transport) :
    Concludes (unread total s / 5 + 1) receiveData s (fun _ t => Took s t) (fun _ t => Took s t) := by
  have hpass := concludes_of_pass (k := 0) receiveData
    (P := fun s : Session (Recorded τ) ρ => EndsBy total s.transport)
    (M := fun s => unread total s / 5)
    (Q := fun s _ t => Took s t) (E := fun s _ t => Took s t) ?_ s hs
  · rwa [Nat.zero_add] at hpass
  intro s hs
  refine (receiveData_pass s).mono ?_ (fun _ _ h => h) ?_
  · rintro _ t ⟨record, htakes, -⟩
    exact ⟨_, htakes⟩
  rintro t ⟨record, htakes⟩
  exact ⟨htakes.endsBy hs, htakes.unread_div_lt hs, fun _ u h => .trans ⟨_, htakes⟩ h,
    fun _ u h => .trans ⟨_, htakes⟩ h⟩

/-- The server's flight ends after at most as many passes as there are bytes for messages. -/
theorem receiveFlight_concludes (hs : EndsBy total s.transport) :
    Concludes (unread total s / 5 + 1 + unprocessed total s + 1) receiveFlight s
      (fun _ t => Took s t) (fun _ t => Took s t) := by
  refine concludes_of_pass receiveFlight (M := unprocessed total)
    (P := fun t : Session (Recorded τ) ρ =>
      EndsBy total t.transport ∧ unread total t ≤ unread total s)
    (Q := fun s _ t => Took s t) (E := fun s _ t => Took s t) ?_ s ⟨hs, Nat.le_refl _⟩
  rintro t ⟨ht, hle⟩
  have hmessage := (receiveMessage_concludes ht).of_le
    (show unread total t / 5 + 1 ≤ unread total s / 5 + 1 by omega)
  refine (receiveFlight_pass hmessage).mono (fun _ _ h => h) (fun _ _ h => h) ?_
  rintro v ⟨message, u, hu, hremoves⟩
  have hv : Took t v := hu.trans hremoves.took
  have hless : unprocessed total v < unprocessed total t := by
    have hstep := hremoves.unprocessed_lt total
    have hbefore := hu.unprocessed_le ht
    omega
  exact ⟨⟨hv.endsBy ht, (hv.unread_le ht).trans hle⟩, hless, fun _ _ h => hv.trans h,
    fun _ _ h => hv.trans h⟩

/-! ### Sequences of loops -/

/-- With enough patience the action comes to an end, and has taken records off the stream. -/
def Finishes (a : Nat → Action (Recorded τ) ρ α) (s : Session (Recorded τ) ρ) : Prop :=
  ∃ k, Concludes k a s (fun _ t => Took s t) (fun _ t => Took s t)

namespace Finishes

variable {a : Nat → Action (Recorded τ) ρ α}

theorem of_prompt {a : Action (Recorded τ) ρ α} (h : Prompt a) (s : Session (Recorded τ) ρ) :
    Finishes (fun _ => a) s :=
  ⟨0, .of_ends 0 (h s)⟩

theorem of_eq {b : Nat → Action (Recorded τ) ρ α} (k : Nat) (h : Finishes b t) (ht : Took s t)
    (heq : ∀ fuel, k ≤ fuel → a fuel s = b fuel t) : Finishes a s := by
  obtain ⟨k', h⟩ := h
  refine ⟨max k k', Concludes.of_eq (t := t) (b := b) ?_ fun fuel hfuel => ?_⟩
  · exact (h.of_le (Nat.le_max_right k k')).mono (fun _ _ hu => ht.trans hu) fun _ _ hu => ht.trans hu
  · exact heq fuel ((Nat.le_max_left k k').trans hfuel)

/-- A sequence needs the patience that the part needs which needs more of it. -/
theorem bind {f : α → Nat → Action (Recorded τ) ρ β} (h : Finishes a s)
    (hf : ∀ x t, Took s t → Finishes (f x) t) : Finishes (fun fuel => a fuel >>= (f · fuel)) s := by
  obtain ⟨k, h⟩ := h
  rcases h.cases with ⟨e, t, ⟨he, ht⟩, hstop⟩ | ⟨x, t, ht, hnext⟩
  · have hthrow : Ends (throw e : Action (Recorded τ) ρ β) t (fun _ u => Took s u)
        fun e u => e ≠ .unfinished ∧ Took s u := ⟨he, ht⟩
    exact ⟨k, (Concludes.of_ends k hthrow).of_eq fun fuel hfuel => bind_of_error (hstop fuel hfuel)⟩
  · exact (hf x t ht).of_eq k ht fun fuel hfuel => bind_of_ok (hnext fuel hfuel)

/-- What goes on behind an action without a loop ends if the rest of it does. -/
theorem bind_prompt {a : Action (Recorded τ) ρ α} {f : α → Nat → Action (Recorded τ) ρ β}
    (h : Prompt a) (hf : ∀ x t, Took s t → Finishes (f x) t) :
    Finishes (fun fuel => a >>= (f · fuel)) s :=
  bind (of_prompt h s) hf

end Finishes

theorem Took.lively (h : Took s t) (hs : RandomSource.Lively s.random) :
    RandomSource.Lively t.random := by
  obtain ⟨records, h⟩ := h
  exact hs.of_leads h.draws

omit [Transport τ] in
/-- Encryption stops for want of patience only if the source has too few bytes that are not zero. -/
theorem encrypt_concludes (key : PublicKey) (message : Bytes) {r : ρ} (h : RandomSource.Lively r) :
    ∃ k result r', result ≠ .error .unfinished ∧
      ∀ fuel, k ≤ fuel → key.encrypt fuel message r = (result, r') := by
  by_cases hroom : message.length + PublicKey.paddingOverhead ≤ key.byteLength
  · obtain ⟨k, padding, r', hpadding⟩ :=
      PublicKey.exists_nonZeroBytes h (key.byteLength - message.length - 3)
    refine ⟨k, _, r', ?_, fun fuel hfuel =>
      PublicKey.encrypt_of_nonZeroBytes hroom (hpadding fuel hfuel)⟩
    cases key.raise (PublicKey.paddedWith padding message) <;> simp [Except.mapError]
  · have hlong : key.byteLength < PublicKey.paddingOverhead ∨
        message.length > key.byteLength - PublicKey.paddingOverhead := by
      omega
    refine ⟨0, .error (.failed (.crypto (.messageTooLong message.length key.byteLength))), r, ?_,
      fun fuel _ => ?_⟩
    · simp
    · rw [PublicKey.encrypt, PublicKey.pad, if_pos hlong]

/-- Padding is found in a lively source, so the key exchange ends. -/
theorem sendKeyExchange_finishes (hs : RandomSource.Lively s.random) :
    Finishes sendKeyExchange s := by
  apply Finishes.bind_prompt Quiet.current.prompt
  intro c t ht
  cases hkey : c.serverKey with
  | none => exact .of_prompt (Quiet.fail _).prompt t
  | some key =>
    dsimp only
    apply Finishes.bind_prompt (Quiet.draw fun r => .fill _ (.refl r)).prompt
    intro random u hu
    obtain ⟨k, result, r', hresult, hencrypt⟩ := encrypt_concludes key
      (ProtocolVersion.tls12.toBytes ++ random) ((ht.trans hu).lively hs)
    have hdraw : ∀ fuel, k ≤ fuel →
        draw (key.encrypt fuel (ProtocolVersion.tls12.toBytes ++ random)) u =
          .ok result { u with random := r' } := by
      intro fuel hfuel
      rw [draw, hencrypt fuel hfuel]
    have hdrawn : Took u { u with random := r' } := by
      have hleads := leads_encrypt key k (ProtocolVersion.tls12.toBytes ++ random) u.random
      rw [hencrypt k (Nat.le_refl k)] at hleads
      exact ⟨[], .of_same rfl hleads rfl (Nat.le_refl _)⟩
    refine Finishes.of_eq k ?_ hdrawn fun fuel hfuel => bind_of_ok (hdraw fuel hfuel)
    cases result with
    | error stop =>
      refine .of_prompt (fun v => ends_throw ⟨?_, Took.refl v⟩) _
      rintro rfl
      exact hresult rfl
    | ok encrypted =>
      refine .of_prompt ?_ _
      exact .bind (.sendMessage _ _) fun _ => (Quiet.bind (.advance _) fun _ => .pure _).prompt

theorem receiveFinished_finishes (hs : EndsBy total s.transport) : Finishes receiveFinished s := by
  apply Finishes.bind_prompt (Quiet.verifyDataFor _).prompt
  intro expected t ht
  have hmessage : Finishes receiveMessage t := by
    refine ⟨_, (receiveMessage_concludes (ht.endsBy hs)).mono ?_ fun _ _ h => h⟩
    rintro message v ⟨u, hu, hremoves⟩
    exact hu.trans hremoves.took
  apply hmessage.bind
  intro bytes u _
  refine .of_prompt (Quiet.prompt (.bind .current fun c => .bind (.check _) fun message => ?_)) u
  split
  · split
    · exact .note _
    · exact .fail _
  · exact .fail _

theorem receiveEnd_finishes (hs : EndsBy total s.transport) : Finishes receiveEnd s := by
  apply Finishes.bind_prompt .receiveChangeCipherSpec
  intro _ t ht
  apply Finishes.bind_prompt Quiet.get.prompt
  intro session u hu
  have hend (v : Session (Recorded τ) ρ) : Finishes (fun _ => advance .serverFinished) v :=
    .of_prompt (Quiet.advance _).prompt v
  dsimp only
  cases hverify : session.config.verifyFinished with
  | true =>
    simp only [if_true]
    exact (receiveFinished_finishes ((ht.trans hu).endsBy hs)).bind fun _ v _ => hend v
  | false =>
    simp only [Bool.false_eq_true, if_false]
    exact .bind_prompt .skipFinished fun _ v _ => hend v

/-- All parts of a handshake end, one after the other. -/
theorem negotiate_finishes (now : Clock) (host : String) (peer : Endpoint)
    (hs : EndsBy total s.transport) (hl : RandomSource.Lively s.random) :
    Finishes (fun fuel => negotiate fuel now host peer) s := by
  apply Finishes.bind_prompt (.operate (fun t => ⟨[.connect peer], rfl⟩) fun t => rfl)
  intro id t ht
  refine Finishes.bind_prompt (Quiet.prompt (.update (fun _ => rfl) fun _ => rfl)) fun _ u hu => ?_
  apply Finishes.bind_prompt (.sendHello now host)
  intro _ v hv
  have hhello : Took s v := ht.trans (hu.trans hv)
  apply Finishes.bind ⟨_, receiveFlight_concludes (hhello.endsBy hs)⟩
  intro _ w hw
  apply (sendKeyExchange_finishes ((hhello.trans hw).lively hl)).bind
  intro preMaster x hx
  apply Finishes.bind_prompt (Quiet.deriveKeys preMaster).prompt
  intro _ y hy
  apply Finishes.bind_prompt .sendChangeCipherSpec
  intro _ z hz
  apply Finishes.bind_prompt .sendFinished
  intro _ z' hz'
  have hall : Took s z' := hhello.trans (hw.trans (hx.trans (hy.trans (hz.trans hz'))))
  exact receiveEnd_finishes (hall.endsBy hs)

omit [Transport τ] in
/-- Giving a connection up leaves alone what has arrived on it. -/
theorem still_failed (s : Session (Recorded τ) ρ) :
    Still s { s with connection := s.connection.failed } :=
  ⟨rfl, .refl _, rfl, rfl⟩

/-- So does the handshake, which only gives up the connection on top of that. -/
theorem handshake_finishes (now : Clock) (host : String) (peer : Endpoint)
    (hs : EndsBy total s.transport) (hl : RandomSource.Lively s.random) :
    Finishes (fun fuel => handshake fuel now host peer) s := by
  by_cases hinit : s.connection.state = .init
  · obtain ⟨k, h⟩ := negotiate_finishes now host peer hs hl
    refine ⟨k, Concludes.bind_current ?_⟩
    simp only [hinit, if_true]
    exact h.orFail fun e t ht => ht.trans (still_failed t).took
  · refine ⟨0, Concludes.bind_current ?_⟩
    simp only [hinit, if_false]
    exact .of_ends 0 (ends_fail ⟨Stop.noConfusion, Took.refl s⟩)

theorem recv_concludes (room : Nat) (hs : EndsBy total s.transport) :
    Concludes (unread total s / 5 + 1) (fun fuel => recv fuel room) s (fun _ t => Took s t)
      (fun _ t => Took s t) := by
  have hpending (t : Session (Recorded τ) ρ) (ht : Took s t) :
      Ends (do
        let pending := (← current).pending
        update ({ · with pending := pending.drop room })
        return pending.take room) t (fun _ u => Took s u) fun e u => e ≠ .unfinished ∧ Took s u := by
    apply Ends.bind_current
    refine Ends.bind_update (ends_pure (ht.trans ?_))
    exact ⟨[], .of_same rfl (.refl _) rfl (Nat.le_refl _)⟩
  apply Concludes.bind_current
  by_cases hempty : s.connection.pending = []
  · simp only [hempty, if_true]
    cases hstate : s.connection.state.isEstablished with
    | true =>
      simp only [if_true]
      apply Concludes.bind
      refine ((receiveData_concludes hs).orSuspend (fun _ _ h => h) fun e t ht =>
        ht.trans (still_failed t).took).mono (fun _ t ht => ?_) fun _ _ h => h
      exact .of_ends _ (hpending t ht)
    | false =>
      simp only [Bool.false_eq_true, if_false]
      exact .of_ends _ (ends_fail ⟨Stop.noConfusion, Took.refl s⟩)
  · simp only [hempty, if_false]
    exact .of_ends _ (hpending s (Took.refl s))

def TakesAtMost (n : Nat) (s t : Session (Recorded τ) ρ) : Prop :=
  ∃ records, Takes records s t ∧ records.length ≤ n

/-- The bytes that can still come bound the records that can be taken. -/
theorem Took.takesAtMost {n : Nat} (h : Took s t) (hs : Supplies n s.transport) :
    TakesAtMost ((s.connection.reader.buffer.length + n) / 5) s t := by
  obtain ⟨records, h⟩ := h
  have hlength := h.length_le hs
  have hunread := unread_of_supplies n s
  exact ⟨records, h, by omega⟩

/-- Over a transport that supplies a limited number of bytes, and with a source of random numbers that
goes on yielding bytes that are not zero, a handshake comes to an end, and so does receiving, whatever
the bytes are: from some patience on the result is always the same one, it is not that patience has run
out, and with five bytes for each record no more of them were taken than were available. Each pass of
the loops takes a record off the stream, or takes a message with its header out of the handshake buffer,
or is the last one. -/
theorem calls_conclude {n : Nat} {s : Session (Recorded τ) ρ} (hsupply : Supplies n s.transport)
    (hlively : RandomSource.Lively s.random) :
    let available := s.connection.reader.buffer.length + n
    (∀ now host peer, ∃ k, Concludes k (fun fuel => handshake fuel now host peer) s
      (fun _ t => TakesAtMost (available / 5) s t) fun _ t => TakesAtMost (available / 5) s t) ∧
    (∀ room, Concludes (available / 5 + 1) (fun fuel => recv fuel room) s
      (fun _ t => TakesAtMost (available / 5) s t) fun _ t => TakesAtMost (available / 5) s t) ∧
    ∀ u : Session (Recorded τ) ρ,
      Pass 0 receiveMessage (fun fuel => receiveMessage (fuel + 1)) u
        (fun message v => Removes message u v) (fun _ v => Took u v)
        (fun v => ∃ record, Takes [record] u v ∧ 5 ≤ record.toBytes.length) ∧
      Pass 0 receiveData (fun fuel => receiveData (fuel + 1)) u
        (fun _ v => ∃ record, Takes [record] u v ∧ v.connection.pending ≠ []) (fun _ v => Took u v)
        (fun v => ∃ record, Takes [record] u v ∧ 5 ≤ record.toBytes.length) ∧
      Ends receiveChangeCipherSpec u (fun _ v => ∃ record, Takes [record] u v)
        (fun e v => e ≠ .unfinished ∧ Took u v) ∧
      ∀ m, Supplies m u.transport → ∃ k,
        Pass k receiveFlight (fun fuel => receiveFlight (fuel + 1)) u (fun _ v => Took u v)
          (fun _ v => Took u v) (fun v => ∃ message w, Took u w ∧ Removes message w v) := by
  have hlong (record : Record) : 5 ≤ record.toBytes.length := by
    rw [Record.length_toBytes]
    exact Nat.le_add_right 5 _
  have hnext {u v : Session (Recorded τ) ρ} (h : ∃ record, Takes [record] u v) :
      ∃ record, Takes [record] u v ∧ 5 ≤ record.toBytes.length := by
    obtain ⟨record, h⟩ := h
    exact ⟨record, h, hlong record⟩
  have hend (α : Type) (_ : α) (t : Session (Recorded τ) ρ) (h : Took s t) :
      TakesAtMost ((s.connection.reader.buffer.length + n) / 5) s t := h.takesAtMost hsupply
  refine ⟨fun now host peer => ?_, fun room => ?_, fun u => ⟨?_, ?_, ?_, fun m hm => ?_⟩⟩
  · obtain ⟨k, h⟩ := handshake_finishes now host peer hsupply hlively
    exact ⟨k, h.mono (hend _) (hend _)⟩
  · have h := recv_concludes room hsupply
    rw [unread_of_supplies] at h
    exact h.mono (hend _) (hend _)
  · exact (receiveMessage_pass u).mono (fun _ _ h => h) (fun _ _ h => h) fun _ h => hnext h
  · exact (receiveData_pass u).mono (fun _ _ h => h) (fun _ _ h => h) fun _ h => hnext h
  · exact receiveChangeCipherSpec_takes u
  · exact ⟨_, receiveFlight_pass (receiveMessage_concludes hm)⟩

end

/-! ### A recorded server -/

/-- A tape supplies what is on it. -/
theorem tape_supplies (t : Recorded Tape) : Supplies t.inner.chunks.flatten.length t := by
  intro uses
  induction uses generalizing t with
  | nil => exact Nat.le_add_right _ _
  | cons use uses ih =>
    have hstep : (afterUse t use).received.length + (afterUse t use).inner.chunks.flatten.length ≤
        t.received.length + t.inner.chunks.flatten.length := by
      cases use with
      | recv id limit =>
        obtain ⟨⟨chunks⟩, sent, received⟩ := t
        cases chunks with
        | nil =>
          show (received ++ []).length + 0 ≤ _
          rw [List.append_nil]
          exact Nat.le_refl _
        | cons chunk chunks =>
          -- What does not fit stays in front of the other chunks.
          have hleft : (if chunk.drop limit = [] then chunks else chunk.drop limit :: chunks).flatten =
              chunk.drop limit ++ chunks.flatten := by
            split
            · rename_i hempty
              rw [hempty, List.nil_append]
            · rfl
          show (received ++ chunk.take limit).length +
            (if chunk.drop limit = [] then chunks else chunk.drop limit :: chunks).flatten.length ≤
              received.length + (chunk ++ chunks.flatten).length
          have hchunk := congrArg List.length (List.take_append_drop limit chunk)
          rw [List.length_append] at hchunk
          rw [hleft, List.length_append, List.length_append, List.length_append]
          omega
      | _ => exact Nat.le_refl _
    exact (ih (afterUse t use)).trans hstep

/-- The handshake with the recorded server ends, and so does the call that waits for its data. -/
theorem sample_concludes :
    (∃ k, Concludes k (fun fuel => handshake fuel ⟨0, 0⟩ "" .unspecified) Tape.client
      (fun _ t => TakesAtMost 46 Tape.client t) fun _ t => TakesAtMost 46 Tape.client t) ∧
    ∃ t, Tape.handshake Tape.client = .ok () t ∧ t.connection.state = .established ∧
      Concludes 7 (fun fuel => recv fuel 9) t (fun _ u => TakesAtMost 6 t u)
        fun _ u => TakesAtMost 6 t u := by
  have hsupply : Supplies 232 Tape.client.transport := tape_supplies _
  have hlively : RandomSource.Lively Tape.client.random := ScriptedSource.lively (by decide)
  obtain ⟨hhandshake, -, -⟩ := calls_conclude hsupply hlively
  obtain ⟨t, -, ht, ⟨hstate, hbuffer, htape, hnext⟩, -⟩ := Tape.sample_run
  have hleft : Supplies 31 t.transport := htape ▸ tape_supplies t.transport
  obtain ⟨-, hrecv, -⟩ := calls_conclude hleft (ScriptedSource.lively hnext)
  rw [hbuffer] at hrecv
  exact ⟨hhandshake ⟨0, 0⟩ "" .unspecified, t, ht, hstate, hrecv 9⟩

end TlsClient.Session
