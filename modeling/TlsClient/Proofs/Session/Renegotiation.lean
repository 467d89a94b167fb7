import TlsClient.Proofs.Session.Completion

namespace TlsClient

/-- The content of a record that starts with the header of a request to start over. The length in the
header and what stands behind it may be anything. -/
def BeginsRequest (content : Bytes) : Prop :=
  ∃ a b c rest, content = MessageType.helloRequest.code :: a :: b :: c :: rest

/-- What an established session objects to in any other handshake record. -/
def objectionTo (content : Bytes) : Error :=
  if content.length < HandshakeHeader.byteLength then .tooShort
  else .unexpectedHandshake (MessageType.ofCode (content.headD 0)) .established

/-- The objection is always about the protocol, so it ends the session. -/
theorem objectionTo_kind (content : Bytes) : (objectionTo content).kind = .protocol := by
  unfold objectionTo
  split <;> rfl

theorem MessageType.ofCode_eq_helloRequest_iff {v : UInt8} :
    ofCode v = helloRequest ↔ v = helloRequest.code := by
  constructor
  · intro h
    rw [← h, code_ofCode]
  · rintro rfl
    rfl

theorem HandshakeHeader.parse_cons (v a b c : UInt8) (rest : Bytes) :
    parse.parse (v :: a :: b :: c :: rest) =
      .ok ⟨MessageType.ofCode v, Bytes.toNat [a, b, c]⟩ := rfl

namespace Session

open Network

variable {τ ρ : Type} [Transport τ] {s t : Session τ ρ}

/-- One record more or less makes no difference if it is passed over. -/
theorem receiveData_passes (fuel : Nat) {r : Record} (h : receive s = .ok r t)
    (hkind : r.contentType = .handshake) (hrequest : BeginsRequest r.fragment) :
    receiveData (fuel + 1) s = receiveData fuel t := by
  obtain ⟨a, b, c, rest, hrest⟩ := hrequest
  rw [receiveData]
  apply (bind_of_ok h).trans
  rw [hkind, hrest, HandshakeHeader.parse_cons]
  rfl

/-- A handshake record that does not begin as a request ends receiving with the objection to it. -/
theorem receiveData_refuses (fuel : Nat) {r : Record} (h : receive s = .ok r t)
    (hkind : r.contentType = .handshake) (hrequest : ¬ BeginsRequest r.fragment)
    (hstate : t.connection.state = .established) :
    receiveData (fuel + 1) s = .error (.failed (objectionTo r.fragment)) t := by
  rw [receiveData]
  apply (bind_of_ok h).trans
  rw [hkind]
  match hcontent : r.fragment with
  | v :: a :: b :: c :: rest =>
    have hother : MessageType.ofCode v ≠ .helloRequest := by
      intro hv
      rw [MessageType.ofCode_eq_helloRequest_iff] at hv
      exact hrequest ⟨a, b, c, rest, by rw [hcontent, hv]⟩
    have hlong : ¬ (v :: a :: b :: c :: rest).length < HandshakeHeader.byteLength := by
      simp [HandshakeHeader.byteLength]
    rw [HandshakeHeader.parse_cons, objectionTo, if_neg hlong, ← hstate]
    apply (bind_of_ok rfl).trans
    rw [if_neg hother]
    rfl
  -- A record of fewer than four bytes has no header.
  | [] | [_] | [_, _] | [_, _, _] => rfl

variable {contents : List Bytes}

theorem Brings.keeps (h : Brings s contents t) :
    t.connection.state = s.connection.state ∧ t.connection.pending = s.connection.pending := by
  induction h with
  | nil s => exact ⟨rfl, rfl⟩
  | cons h _ _ ih =>
    obtain ⟨_, _, _, rfl⟩ := receive_changes h
    exact ih

/-- Records that begin as a request are passed over, whatever stands behind their header. -/
theorem Brings.receiveData_passes (h : Brings s contents t)
    (hall : ∀ content ∈ contents, BeginsRequest content) (fuel : Nat) :
    receiveData (fuel + contents.length) s = receiveData fuel t := by
  induction h with
  | nil s => rfl
  | cons h hkind _ ih =>
    obtain ⟨hfirst, hrest⟩ := List.forall_mem_cons.1 hall
    rw [List.length_cons, ← Nat.add_assoc]
    exact (Session.receiveData_passes _ h hkind hfirst).trans (ih hrest)

/-- The first record that does not ends it, behind any number of others. -/
theorem Brings.receiveData_refuses {content : Bytes} (h : Brings s contents t)
    (hstate : t.connection.state = .established) {before : List Bytes}
    (hparts : contents = before ++ [content]) (hall : ∀ c ∈ before, BeginsRequest c)
    (hcontent : ¬ BeginsRequest content) (fuel : Nat) :
    receiveData (fuel + contents.length) s = .error (.failed (objectionTo content)) t := by
  -- The induction is on the records; what is before the last one is passed over.
  induction h generalizing before with
  | nil s => cases before <;> cases hparts
  | cons h hkind hrest ih =>
    rw [List.length_cons, ← Nat.add_assoc]
    cases before with
    | nil =>
      obtain ⟨rfl, rfl⟩ := List.cons.inj hparts
      cases hrest
      exact Session.receiveData_refuses _ h hkind hcontent hstate
    | cons first before =>
      obtain ⟨rfl, hlater⟩ := List.cons.inj hparts
      obtain ⟨hfirst, hall⟩ := List.forall_mem_cons.1 hall
      exact (Session.receiveData_passes _ h hkind hfirst).trans (ih hstate hlater hall)

/-- What a call for data comes to is decided by how receiving ends. -/
theorem recv_congr {fuel fuel' : Nat} (room : Nat) (hs : s.connection.state.isEstablished = true)
    (ht : t.connection.state.isEstablished = true) (hspending : s.connection.pending = [])
    (htpending : t.connection.pending = []) (h : receiveData fuel s = receiveData fuel' t) :
    recv fuel room s = recv fuel' room t := by
  have hrecv {fuel : Nat} {s : Session τ ρ} (hs : s.connection.state.isEstablished = true)
      (hpending : s.connection.pending = []) :
      recv fuel room s = (do
        orSuspend (receiveData fuel)
        let pending := (← current).pending
        update ({ · with pending := pending.drop room })
        return pending.take room : Action τ ρ Bytes) s := by
    rw [recv]
    apply (bind_of_ok rfl).trans
    rw [if_pos hpending, if_pos hs]
  have hsuspend : orSuspend (receiveData fuel) s = orSuspend (receiveData fuel') t := by
    rw [orSuspend, orSuspend, h]
  rw [hrecv hs hspending, hrecv ht htpending]
  simp only [Bind.bind, EStateM.bind, hsuspend]

theorem recv_of_final {fuel room : Nat} {e : Error} (hs : s.connection.state.isEstablished = true)
    (hpending : s.connection.pending = []) (h : receiveData fuel s = .error (.failed e) t)
    (he : isResumable (.failed e) = false) :
    recv fuel room s = .error (.failed e) { t with connection := t.connection.failed } := by
  rw [recv]
  apply (bind_of_ok rfl).trans
  rw [if_pos hpending, if_pos hs]
  apply bind_of_error
  rw [orSuspend, h]
  dsimp only
  rw [he, if_neg Bool.false_ne_true]

/-- A call cannot tell that requests came before what it receives. -/
theorem recv_passes (hestablished : s.connection.state = .established)
    (hpending : s.connection.pending = []) (h : Brings s contents t)
    (hall : ∀ content ∈ contents, BeginsRequest content) (fuel room : Nat) :
    recv (fuel + contents.length) room s = recv fuel room t := by
  obtain ⟨hstate, htpending⟩ := h.keeps
  apply recv_congr room _ _ hpending (htpending.trans hpending) (h.receiveData_passes hall fuel)
  · rw [hestablished]
    rfl
  · rw [hstate, hestablished]
    rfl

/-- An established session passes over the handshake records that begin a request to start over,
however many there are and whatever the rest of them is. At the first other one a call for data fails
with a protocol error, and the connection is in its error state. -/
theorem recv_handshakes (hestablished : s.connection.state = .established)
    (hpending : s.connection.pending = []) (h : Brings s contents t) (fuel room : Nat) :
    ((∀ content ∈ contents, BeginsRequest content) →
      recv (fuel + contents.length) room s = recv fuel room t) ∧
    ∀ before content, contents = before ++ [content] → (∀ c ∈ before, BeginsRequest c) →
      ¬ BeginsRequest content → ∃ e u,
        recv (fuel + contents.length) room s = .error (.failed e) u ∧ e = objectionTo content ∧
        e.kind = .protocol ∧ u = { t with connection := t.connection.failed } ∧
        u.connection.state = .error := by
  constructor
  · exact fun hall => recv_passes hestablished hpending h hall fuel room
  · intro before content hparts hall hcontent
    have hs : s.connection.state.isEstablished = true := by rw [hestablished]; rfl
    have hstate := h.keeps.1.trans hestablished
    have hfinal : isResumable (.failed (objectionTo content)) = false := by
      unfold objectionTo
      split <;> rfl
    have hrefuses := h.receiveData_refuses hstate hparts hall hcontent fuel
    exact ⟨_, _, recv_of_final hs hpending hrefuses hfinal, rfl, objectionTo_kind content, rfl, rfl⟩

end Session

namespace Simulation.Tape

open Network Session

/-- The recorded server asks the client to start over, twice, before it sends its data. Behind the
first request there is another message, and the second one announces a body that does not come. -/
def restarting : Tape where
  chunks := sample.chunks.take 4 ++ [
    [22, 3, 3, 0, 32, 0, 0, 0, 0, 0, 0, 0, 1, 198, 70, 232, 188, 150, 99, 136, 187, 201, 116, 113, 36,
      116, 159, 149, 60, 63, 173, 171, 2, 22, 113, 115, 224],
    [22, 3, 3, 0, 28, 0, 0, 0, 0, 0, 0, 0, 2, 177, 31, 168, 128, 11, 182, 39, 79, 102, 35, 189, 94,
      147, 240, 3, 64, 139, 191, 45, 202],
    [23, 3, 3, 0, 26, 0, 0, 0, 0, 0, 0, 0, 3, 190, 223, 183, 198, 19, 13, 153, 100, 156, 130, 213, 68,
      70, 238, 9, 111, 67, 254]]

def askedClient : Session (Recorded Tape) ScriptedSource :=
  .start (.start restarting) client.config (.ofBytes [])

def requests : List Bytes := [[0, 0, 0, 0, 14, 0, 0, 0], [0, 0, 0, 5]]

theorem requests_begin : ∀ content ∈ requests, BeginsRequest content := by
  intro content hcontent
  rcases List.mem_cons.1 hcontent with rfl | hcontent
  · exact ⟨0, 0, 0, [14, 0, 0, 0], rfl⟩
  · rw [List.mem_singleton.1 hcontent]
    exact ⟨0, 0, 5, [], rfl⟩

def nextTwo : Action (Recorded Tape) ScriptedSource (Record × Record) := do
  let first ← receive
  let second ← receive
  return (first, second)

theorem brings_of_nextTwo {s t : Session (Recorded Tape) ScriptedSource} {r r' : Record}
    (h : nextTwo s = .ok (r, r') t) (hr : r.contentType = .handshake)
    (hr' : r'.contentType = .handshake) : Brings s [r.fragment, r'.fragment] t := by
  obtain ⟨_, u, hfirst, hrest⟩ := bind_eq_ok_iff.1 h
  obtain ⟨_, v, hsecond, hpure⟩ := bind_eq_ok_iff.1 hrest
  obtain ⟨hrecords, rfl⟩ := pure_eq_ok_iff.1 hpure
  obtain ⟨rfl, rfl⟩ := Prod.mk.inj hrecords
  exact .cons hfirst hr (.cons hsecond hr' (.nil v))

/-- The client is established when the requests come, and still is when it gets the data. -/
theorem restarting_run : ∃ s t u : Session (Recorded Tape) ScriptedSource,
    Reachable s ∧ s.connection.state = .established ∧ s.connection.pending = [] ∧
    Brings s requests t ∧ Session.recv 1 9 t = .ok [104, 105] u ∧
    u.connection.state = .established := by
  have hlisten : reaches (listen 100 ⟨0, 0⟩ "" .unspecified) askedClient IsAnswered := by
    decide +kernel
  have hfinish : reaches finish (keyed (after (listen 100 ⟨0, 0⟩ "" .unspecified) askedClient))
      fun s =>
        match nextTwo s with
        | .ok (r, r') t =>
          match Session.recv 1 9 t with
          | .ok bs u => decide (s.connection.state = .established ∧ s.connection.pending = [] ∧
              r.contentType = .handshake ∧ r'.contentType = .handshake ∧
              [r.fragment, r'.fragment] = requests ∧ bs = [104, 105] ∧
              u.connection.state = .established)
          | .error _ _ => false
        | .error _ _ => false := by
    decide +kernel
  obtain ⟨s, hhandshake, hrun⟩ := exists_handshake rfl hlisten hfinish
  split at hrun
  case h_2 => cases hrun
  rename_i r r' t hnext
  split at hrun
  case h_2 => cases hrun
  rename_i bs u hrecv
  obtain ⟨hs, hpending, hr, hr', hcontents, rfl, hu⟩ := of_decide_eq_true hrun
  have hreachable : Reachable (after handshake askedClient) := .handshake (.start ..) 100 ⟨0, 0⟩ ""
    .unspecified
  rw [after, hhandshake] at hreachable
  exact ⟨s, t, u, hreachable, hs, hpending, hcontents ▸ brings_of_nextTwo hnext hr hr', hrecv, hu⟩

/-- The requests make no difference to the call that gets the data. -/
theorem restarting_passed : ∃ s t : Session (Recorded Tape) ScriptedSource,
    s.connection.state = .established ∧ s.connection.pending = [] ∧ Brings s requests t ∧
    Session.recv 3 9 s = Session.recv 1 9 t := by
  obtain ⟨s, t, -, -, hs, hpending, hbrings, -, -⟩ := restarting_run
  exact ⟨s, t, hs, hpending, hbrings, (recv_handshakes hs hpending hbrings 1 9).1 requests_begin⟩

/-- Neither record consists of requests alone, and yet the client is not in its error state. -/
theorem more_than_requests_passed : ∃ s t u : Session (Recorded Tape) ScriptedSource,
    Reachable s ∧ s.connection.state = .established ∧ s.connection.pending = [] ∧
    Brings s requests t ∧
    (∀ content ∈ requests, ∀ n, content ≠ (List.replicate n [0, 0, 0, 0]).flatten) ∧
    Session.recv 3 9 s = .ok [104, 105] u ∧ u.connection.state = .established := by
  obtain ⟨s, t, u, hreachable, hs, hpending, hbrings, hrecv, hu⟩ := restarting_run
  refine ⟨s, t, u, hreachable, hs, hpending, hbrings, ?_, ?_, hu⟩
  · intro content hcontent n hn
    -- Each of them has a byte that is not zero.
    have hzero : ∀ b ∈ content, b = 0 := by
      intro b hb
      rw [hn] at hb
      obtain ⟨request, hrequest, hb⟩ := List.mem_flatten.1 hb
      rw [List.eq_of_mem_replicate hrequest] at hb
      exact List.eq_of_mem_replicate (n := 4) hb
    have hnonzero : ∀ content ∈ requests, ∃ b ∈ content, b ≠ 0 := by decide
    obtain ⟨b, hb, hne⟩ := hnonzero content hcontent
    exact hne (hzero b hb)
  · rw [← hrecv]
    exact recv_passes hs hpending hbrings requests_begin 1 9

end Simulation.Tape
end TlsClient
