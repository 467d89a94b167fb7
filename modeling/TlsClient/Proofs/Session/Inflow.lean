import TlsClient.Proofs.Session.Reassembly
import TlsClient.Session.Calls

namespace TlsClient

def applicationData (xs : List (Record × Bytes)) : Bytes :=
  contents (xs.filter fun x => x.1.contentType = .applicationData)

@[simp] theorem applicationData_nil : applicationData [] = [] := rfl

@[simp] theorem applicationData_append (xs ys : List (Record × Bytes)) :
    applicationData (xs ++ ys) = applicationData xs ++ applicationData ys := by
  simp [applicationData]

theorem applicationData_singleton {r : Record} (h : r.contentType = .applicationData)
    (content : Bytes) : applicationData [(r, content)] = content := by
  simp [applicationData, h]

/-- Only records of application data bring data. -/
theorem applicationData_eq_nil {xs : List (Record × Bytes)}
    (h : ∀ x ∈ xs, x.1.contentType ≠ .applicationData) : applicationData xs = [] := by
  have hnone : (xs.filter fun x => x.1.contentType = .applicationData) = [] := by
    rw [List.filter_eq_nil_iff]
    intro x hx
    simpa using h x hx
  rw [applicationData, hnone, contents_nil]

namespace Session

open Network

/-- A session does not go on after something that cannot be read. -/
theorem isResumable_of_parse {α : Type} {p : Wire.Parser α} {bs : Bytes} {e : Error}
    (h : p.parse bs = .error e) : isResumable (.failed e) = false := by
  unfold Wire.Parser.parse at h
  split at h
  · cases h
  · rename_i failure _
    obtain rfl := Except.error.inj h
    cases failure with
    | recoverable code => cases code <;> rfl
    | fatal code => rfl
    | incomplete => rfl

variable {τ ρ : Type}

/-- From `s` to `s'` the bytes `bs` were handed out: they and what is pending now are what was
pending and what the records that were taken bring. -/
def HandsOut (s s' : Session (Recorded τ) ρ) (bs : Bytes) : Prop :=
  ∃ xs, Intake s s' xs ∧
    s.connection.pending ++ applicationData xs = bs ++ s'.connection.pending

theorem HandsOut.refl (s : Session (Recorded τ) ρ) : HandsOut s s [] :=
  ⟨[], Intake.refl s, by rw [applicationData_nil, List.append_nil, List.nil_append]⟩

/-- Data is handed out in the order in which it came. -/
theorem HandsOut.trans {s s' s'' : Session (Recorded τ) ρ} {a b : Bytes} (h : HandsOut s s' a)
    (h' : HandsOut s' s'' b) : HandsOut s s'' (a ++ b) := by
  obtain ⟨xs, hxs, hbytes⟩ := h
  obtain ⟨ys, hys, hbytes'⟩ := h'
  refine ⟨xs ++ ys, hxs.trans hys, ?_⟩
  calc s.connection.pending ++ applicationData (xs ++ ys)
      = (s.connection.pending ++ applicationData xs) ++ applicationData ys := by
        rw [applicationData_append, List.append_assoc]
    _ = a ++ (s'.connection.pending ++ applicationData ys) := by
        rw [hbytes, List.append_assoc]
    _ = a ++ b ++ s''.connection.pending := by
        rw [hbytes', List.append_assoc]

variable [Transport τ]

/-- Receiving for data ends with the first record that brings some. If it stops and may go on, the
records that were taken brought none. -/
theorem receiveData_ends (fuel : Nat) (s : Session (Recorded τ) ρ) :
    Ends (receiveData fuel) s
      (fun _ s' => Receives s s' ∧ ∃ xs, Intake s s' xs ∧
        s'.connection.pending = applicationData xs)
      (fun e s' => Receives s s' ∧ (isResumable e = true → ∃ xs, Intake s s' xs ∧
        applicationData xs = [] ∧ s'.connection.pending = s.connection.pending)) := by
  induction fuel generalizing s with
  | zero => exact ends_throw ⟨Receives.refl s, fun _ => ⟨[], Intake.refl s, rfl, rfl⟩⟩
  | succ fuel ih =>
    refine Ends.bind_mono (receive_ends s) ?_ ?_
    · intro e _ hq
      obtain ⟨inner, received, reader, sequence, rfl, hintake⟩ := hq
      exact ⟨receives_takingIn .., fun he => ⟨[], hintake he, rfl, rfl⟩⟩
    intro _ _ hq
    obtain ⟨record, content, inner, received, reader, sequence, rfl, rfl, -, -, hintake⟩ := hq
    have hreceives := receives_takingIn s inner received reader sequence
    -- A record that is passed over is one more of those that brought nothing.
    have hskip (hnone : applicationData [(record, content)] = []) :
        Ends (receiveData fuel) (s.takingIn inner received reader sequence)
          (fun _ s' => Receives s s' ∧ ∃ xs, Intake s s' xs ∧
            s'.connection.pending = applicationData xs)
          (fun e s' => Receives s s' ∧ (isResumable e = true → ∃ xs, Intake s s' xs ∧
            applicationData xs = [] ∧ s'.connection.pending = s.connection.pending)) := by
      refine (ih _).mono ?_ ?_
      · intro _ s' hq
        obtain ⟨hmore, xs, hxs, hpending⟩ := hq
        refine ⟨hreceives.trans hmore, _, hintake.trans hxs, ?_⟩
        rw [applicationData_append, hnone, hpending, List.nil_append]
      · intro e s' hq
        obtain ⟨hmore, hresume⟩ := hq
        refine ⟨hreceives.trans hmore, fun he => ?_⟩
        obtain ⟨xs, hxs, hdata, hpending⟩ := hresume he
        refine ⟨_, hintake.trans hxs, ?_, hpending⟩
        rw [applicationData_append, hnone, hdata, List.append_nil]
    dsimp only
    split
    · rename_i htype
      split
      · -- An empty record is taken and brings nothing.
        rename_i hempty
        apply hskip
        rw [applicationData_singleton htype, hempty]
      · refine ends_update ⟨⟨_, _, _, _, _, _, _, rfl⟩, [(record, content)], ?_, ?_⟩
        · exact hintake.trans (Intake.of_same rfl rfl rfl rfl rfl)
        · exact (applicationData_singleton htype content).symm
    · rename_i htype
      apply (heed_ends _ _).mono (fun _ _ h => h)
      intro e _ hq
      obtain ⟨lastAlert, rfl⟩ := hq
      refine ⟨⟨_, _, lastAlert, _, _, _, _, rfl⟩, fun _ => ⟨[(record, content)], ?_, ?_, rfl⟩⟩
      · exact hintake.trans (Intake.of_same rfl rfl rfl rfl rfl)
      · apply applicationData_eq_nil
        intro x hx
        rw [List.mem_singleton.1 hx, htype]
        decide
    · rename_i htype
      refine Ends.bind_check (fun header _ => ?_) fun e he => ⟨hreceives, ?_⟩
      · split
        · apply hskip
          apply applicationData_eq_nil
          intro x hx
          rw [List.mem_singleton.1 hx, htype]
          decide
        -- Any other handshake message is the end of the session.
        · exact Ends.bind_current (ends_fail ⟨hreceives, by simp [isResumable]⟩)
      · simp [isResumable_of_parse he]
    · exact ends_fail ⟨hreceives, by simp [isResumable]⟩

/-- Receiving hands out bytes in their order, and if it stops it loses none as long as the session
goes on. -/
theorem recv_ends (fuel room : Nat) (s : Session (Recorded τ) ρ) :
    Ends (recv fuel room) s (fun bs s' => Receives s s' ∧ HandsOut s s' bs)
      (fun _ s' => (Receives s s' ∧ HandsOut s s' []) ∨
        (s.connection.state.isEstablished = true ∧
          ∃ t, Receives s t ∧ s' = { t with connection := t.connection.failed })) := by
  -- Whatever is pending in the end is cut in two.
  have hcut (t : Session (Recorded τ) ρ) (hreceives : Receives s t) (ht : HandsOut s t []) :
      Receives s { t with connection :=
        { t.connection with pending := t.connection.pending.drop room } } ∧
      HandsOut s { t with connection :=
        { t.connection with pending := t.connection.pending.drop room } }
        (t.connection.pending.take room) := by
    obtain ⟨xs, hintake, hpending⟩ := ht
    refine ⟨hreceives.trans ⟨_, _, _, _, _, _, _, rfl⟩, xs, ?_, ?_⟩
    · exact List.append_nil xs ▸ hintake.trans (Intake.of_same rfl rfl rfl rfl rfl)
    · rw [hpending, List.nil_append]
      exact (List.take_append_drop room _).symm
  apply Ends.bind_current
  dsimp only
  by_cases hempty : s.connection.pending = []
  · rw [if_pos hempty]
    by_cases hs : s.connection.state.isEstablished = true
    · rw [if_pos hs]
      refine Ends.bind (Q := fun _ t => Receives s t ∧ HandsOut s t []) (orSuspend_ends ?_) ?_
      · refine (receiveData_ends fuel s).mono ?_ ?_
        · intro _ t h
          obtain ⟨hreceives, xs, hintake, hpending⟩ := h
          exact ⟨hreceives, xs, hintake, by rw [hempty, hpending]⟩
        · intro e t h
          obtain ⟨hreceives, hresume⟩ := h
          by_cases he : isResumable e = true
          · obtain ⟨xs, hintake, hdata, hpending⟩ := hresume he
            rw [if_pos he]
            refine .inl ⟨hreceives, xs, hintake, ?_⟩
            rw [hdata, hpending, List.append_nil, List.nil_append]
          · rw [if_neg he]
            exact .inr ⟨hs, t, hreceives, rfl⟩
      · intro _ t h
        obtain ⟨hreceives, ht⟩ := h
        exact Ends.bind_current (Ends.bind_update (ends_pure (hcut t hreceives ht)))
    · rw [if_neg hs]
      exact ends_fail (.inl ⟨Receives.refl s, HandsOut.refl s⟩)
  · rw [if_neg hempty]
    have hnone := hcut s (Receives.refl s) (HandsOut.refl s)
    exact Ends.bind_current (Ends.bind_update (ends_pure hnone))

end Session
end TlsClient
