import TlsClient.Proofs.Session.Reception
import TlsClient.Proofs.Wire.Messages

namespace TlsClient

def contents (xs : List (Record × Bytes)) : Bytes :=
  xs.flatMap Prod.snd

@[simp] theorem contents_nil : contents [] = [] := rfl

@[simp] theorem contents_cons (x : Record × Bytes) (xs : List (Record × Bytes)) :
    contents (x :: xs) = x.2 ++ contents xs := rfl

@[simp] theorem contents_append (xs ys : List (Record × Bytes)) :
    contents (xs ++ ys) = contents xs ++ contents ys :=
  List.flatMap_append

namespace Session

open Network

variable {τ ρ α : Type}

def AllOf (t : ContentType) (xs : List (Record × Bytes)) : Prop :=
  ∀ x ∈ xs, x.1.contentType = t

/-- An alert changes nothing but what is noted of it. -/
theorem heed_ends (content : Bytes) (s : Session τ ρ) {Q : α → Session τ ρ → Prop} :
    Ends (heed content) s Q (fun _ s' => ∃ lastAlert, s' = { s with lastAlert }) := by
  refine Ends.bind_check (fun alert _ => ?_) fun _ _ => ⟨s.lastAlert, rfl⟩
  apply Ends.bind_modify
  split
  · exact ends_fail ⟨some alert, rfl⟩
  · exact ends_fail ⟨some alert, rfl⟩

theorem checkAnnounced_ends (buffered : Bytes) (s : Session τ ρ) :
    Ends (checkAnnounced buffered) s (fun _ s' => s' = s) (fun _ s' => s' = s) := by
  unfold checkAnnounced
  split
  · exact ends_pure rfl
  · dsimp only
    split
    · exact ends_fail rfl
    · exact ends_pure rfl

variable [Transport τ]

/-- A message comes out of handshake records only, and no byte of theirs is lost. -/
theorem receiveMessage_ends (fuel : Nat) (s : Session (Recorded τ) ρ) :
    Ends (receiveMessage fuel) s
      (fun m s' => Receives s s' ∧ s'.connection.pending = s.connection.pending ∧
        Handshake.IsFramed m ∧ ∃ xs, Intake s s' xs ∧ AllOf .handshake xs ∧
          s.connection.handshakeBuffer ++ contents xs = m ++ s'.connection.handshakeBuffer)
      (fun _ s' => Receives s s') := by
  -- Each turn moves one record's content to the end of the buffer.
  induction fuel generalizing s with
  | zero => exact ends_throw (Receives.refl s)
  | succ fuel ih =>
    apply Ends.bind_current
    dsimp only
    split
    · rename_i n hlength
      -- A whole message is there: it is cut off the buffer, and no record is taken.
      refine Ends.bind_update (ends_pure ?_)
      refine ⟨⟨_, _, _, _, _, _, _, rfl⟩, rfl, Handshake.isFramed_take hlength, [], ?_, ?_, ?_⟩
      · exact Intake.of_same rfl rfl rfl rfl rfl
      · intro x hx
        cases hx
      · rw [contents_nil, List.append_nil]
        exact (List.take_append_drop n _).symm
    · refine Ends.bind_mono (checkAnnounced_ends _ s) ?_ ?_
      · intro e _ hq
        subst hq
        exact Receives.refl _
      intro _ s hq
      subst hq
      refine Ends.bind_mono (receive_ends s) ?_ ?_
      · intro e _ hq
        obtain ⟨inner, received, reader, sequence, rfl, -⟩ := hq
        exact receives_takingIn ..
      intro _ _ hq
      obtain ⟨record, content, inner, received, reader, sequence, rfl, rfl, -, -, hintake⟩ := hq
      have hreceives := receives_takingIn s inner received reader sequence
      split
      · rename_i htype
        refine Ends.bind (Q := fun _ t => Receives s t ∧ Intake s t [(record, content)] ∧
          t.connection.handshakeBuffer = s.connection.handshakeBuffer ++ content ∧
          t.connection.pending = s.connection.pending)
          (ends_update ?_) ?_
        · exact ⟨⟨_, _, _, _, _, _, _, rfl⟩,
            hintake.trans (Intake.of_same rfl rfl rfl rfl rfl), rfl, rfl⟩
        intro _ t hq
        obtain ⟨hstep, htaken, hbuffer, hpending⟩ := hq
        refine (ih t).mono ?_ fun _ s' hmore => hstep.trans hmore
        intro m s' hq
        obtain ⟨hmore, hsame, hframed, xs, hxs, hall, hbytes⟩ := hq
        refine ⟨hstep.trans hmore, hsame.trans hpending, hframed, (record, content) :: xs,
          htaken.trans hxs, ?_, ?_⟩
        · intro x hx
          rcases List.mem_cons.1 hx with rfl | hx
          · exact htype
          · exact hall x hx
        · rw [contents_cons, ← hbytes, hbuffer, List.append_assoc]
      · apply (heed_ends _ _).mono (fun _ _ h => h)
        intro e _ hq
        obtain ⟨lastAlert, rfl⟩ := hq
        exact ⟨_, _, lastAlert, _, _, _, _, rfl⟩
      · exact ends_fail hreceives

end Session
end TlsClient
