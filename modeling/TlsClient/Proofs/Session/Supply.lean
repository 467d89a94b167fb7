import TlsClient.Proofs.Session.Rules
import TlsClient.Session.Reassembly

/-!
Records that a session is about to receive. Receiving a record looks at little of a connection and
leaves the rest alone, so the handshake records that a session `Brings` are still to come after an
update of that rest (`Brings.updating`).
-/

namespace TlsClient.Session

open Network

variable {τ ρ α β : Type}

/-! ### Actions that give a result -/

theorem bind_of_ok {a : Action τ ρ α} {f : α → Action τ ρ β} {s t : Session τ ρ} {x : α}
    (h : a s = .ok x t) : (a >>= f) s = f x t := by
  simp only [Bind.bind, EStateM.bind, h]

theorem bind_of_error {a : Action τ ρ α} {f : α → Action τ ρ β} {s t : Session τ ρ} {e : Stop}
    (h : a s = .error e t) : (a >>= f) s = .error e t := by
  simp only [Bind.bind, EStateM.bind, h]

theorem bind_eq_ok_iff {a : Action τ ρ α} {f : α → Action τ ρ β} {s u : Session τ ρ} {y : β} :
    (a >>= f) s = .ok y u ↔ ∃ x t, a s = .ok x t ∧ f x t = .ok y u := by
  constructor
  · intro h
    cases ha : a s with
    | ok x t => exact ⟨x, t, rfl, (bind_of_ok ha).symm.trans h⟩
    | error e t => cases (bind_of_error ha).symm.trans h
  · intro h
    obtain ⟨x, t, ha, hf⟩ := h
    exact (bind_of_ok ha).trans hf

theorem pure_eq_ok_iff {s t : Session τ ρ} {x y : α} :
    (pure x : Action τ ρ α) s = .ok y t ↔ x = y ∧ s = t := by
  change EStateM.Result.ok x s = EStateM.Result.ok y t ↔ _
  rw [EStateM.Result.ok.injEq]

theorem fail_eq_ok_iff {s t : Session τ ρ} {e : Error} {x : α} :
    (fail e : Action τ ρ α) s = .ok x t ↔ False := by
  change EStateM.Result.error (Stop.failed e) s = EStateM.Result.ok x t ↔ False
  simp only [reduceCtorEq]

theorem check_eq_ok_iff {s t : Session τ ρ} {r : Except Error α} {x : α} :
    (check r : Action τ ρ α) s = .ok x t ↔ r = .ok x ∧ s = t := by
  cases r with
  | ok y => rw [Except.ok.injEq]; exact pure_eq_ok_iff
  | error e => rw [check, fail_eq_ok_iff]; simp only [reduceCtorEq, false_and]

theorem update_eq_ok_iff {s t : Session τ ρ} {f : Connection → Connection} :
    update f s = .ok () t ↔ t = { s with connection := f s.connection } := by
  change EStateM.Result.ok () _ = EStateM.Result.ok () t ↔ _
  rw [EStateM.Result.ok.injEq, eq_comm (a := t)]
  simp only [true_and]

theorem link_eq_ok_iff {s t : Session τ ρ} {id : LinkId} :
    link s = .ok id t ↔ s.connection.link = some id ∧ s = t := by
  have hcurrent : (current : Action τ ρ Connection) s = .ok s.connection s := rfl
  cases hlink : s.connection.link with
  | none =>
    have hfail : link s = (fail (.invalidState s.connection.state) : Action τ ρ LinkId) s := by
      apply (bind_of_ok hcurrent).trans
      simp only [hlink]
    rw [hfail, fail_eq_ok_iff]
    simp only [reduceCtorEq, false_and]
  | some k =>
    have hpure : link s = (pure k : Action τ ρ LinkId) s := by
      apply (bind_of_ok hcurrent).trans
      simp only [hlink]
    rw [hpure, pure_eq_ok_iff, Option.some.injEq]

variable [Transport τ]

theorem receiveWire_eq_ok_iff {s t : Session τ ρ} {r : Record} :
    receiveWire s = .ok r t ↔
      ∃ id reader transport, s.connection.link = some id ∧
        s.connection.reader.read id s.config.pollLimit s.transport =
          (.ok r, reader, transport) ∧
        t = { s with transport, connection := { s.connection with reader } } := by
  constructor
  · intro h
    obtain ⟨id, _, hid, h⟩ := bind_eq_ok_iff.1 h
    obtain ⟨hlink, rfl⟩ := link_eq_ok_iff.1 hid
    split at h
    · rename_i record reader transport hread
      cases h
      exact ⟨id, reader, transport, hlink, hread, rfl⟩
    · cases h
  · intro h
    obtain ⟨id, reader, transport, hlink, hread, rfl⟩ := h
    apply bind_eq_ok_iff.2
    refine ⟨id, s, link_eq_ok_iff.2 ⟨hlink, rfl⟩, ?_⟩
    rw [hread]

omit [Transport τ] in
theorem contentOf_eq_ok_iff {s t : Session τ ρ} {r : Record} {content : Bytes} :
    contentOf r s = .ok content t ↔
      match s.connection.readProtection with
      | none => r.fragment = content ∧ s = t
      | some p =>
        p.unprotect ⟨s.connection.serverSequence, r.contentType, r.version⟩ r.fragment
          s.config.verifyMac = .ok content ∧
        ∃ n, nextSequence s.connection.serverSequence = .ok n ∧
          t = { s with connection := { s.connection with serverSequence := n } } := by
  cases hread : s.connection.readProtection with
  | none =>
    have hpure : contentOf r s = (pure r.fragment : Action τ ρ Bytes) s := by
      change (match s.connection.readProtection with
        | none => (pure r.fragment : Action τ ρ Bytes)
        | some p => _) s = _
      rw [hread]
    rw [hpure, pure_eq_ok_iff]
  | some p =>
    constructor
    · intro h
      obtain ⟨c, _, hc, h⟩ := bind_eq_ok_iff.1 h
      cases hc
      rw [hread] at h
      obtain ⟨_, _, hs, h⟩ := bind_eq_ok_iff.1 h
      cases hs
      obtain ⟨content, _, hopens, h⟩ := bind_eq_ok_iff.1 h
      obtain ⟨hcontent, rfl⟩ := check_eq_ok_iff.1 hopens
      obtain ⟨n, _, hnext, h⟩ := bind_eq_ok_iff.1 h
      obtain ⟨hn, rfl⟩ := check_eq_ok_iff.1 hnext
      obtain ⟨_, u, hu, h⟩ := bind_eq_ok_iff.1 h
      obtain ⟨rfl, rfl⟩ := pure_eq_ok_iff.1 h
      exact ⟨hcontent, n, hn, update_eq_ok_iff.1 hu⟩
    · intro h
      obtain ⟨hcontent, n, hn, rfl⟩ := h
      apply bind_eq_ok_iff.2
      refine ⟨s.connection, s, rfl, ?_⟩
      rw [hread]
      apply bind_eq_ok_iff.2
      refine ⟨s, s, rfl, ?_⟩
      apply bind_eq_ok_iff.2
      refine ⟨content, s, check_eq_ok_iff.2 ⟨hcontent, rfl⟩, ?_⟩
      apply bind_eq_ok_iff.2
      refine ⟨n, s, check_eq_ok_iff.2 ⟨hn, rfl⟩, ?_⟩
      rfl

/-- A record is received exactly if it arrives, opens and is short enough. -/
theorem receive_eq_ok_iff {s t : Session τ ρ} {r : Record} :
    receive s = .ok r t ↔
      ∃ record content u, receiveWire s = .ok record u ∧ contentOf record u = .ok content t ∧
        content.length ≤ Record.maxPlaintext ∧ r = { record with fragment := content } := by
  constructor
  · intro h
    obtain ⟨record, u, hrecord, h⟩ := bind_eq_ok_iff.1 h
    obtain ⟨content, t, hcontent, h⟩ := bind_eq_ok_iff.1 h
    split at h
    · cases h
    · rename_i hshort
      obtain ⟨rfl, rfl⟩ := pure_eq_ok_iff.1 h
      exact ⟨record, content, u, hrecord, hcontent, Nat.not_lt.1 hshort, rfl⟩
  · intro h
    obtain ⟨record, content, u, hrecord, hcontent, hshort, rfl⟩ := h
    apply bind_eq_ok_iff.2
    refine ⟨record, u, hrecord, ?_⟩
    apply bind_eq_ok_iff.2
    refine ⟨content, t, hcontent, ?_⟩
    rw [if_neg (Nat.not_lt.2 hshort)]
    rfl

/-- Receiving a record changes the transport, the reader and the count of opened records. -/
theorem receive_changes {s t : Session τ ρ} {r : Record} (h : receive s = .ok r t) :
    ∃ transport reader serverSequence, t = { s with
      transport, connection := { s.connection with reader, serverSequence } } := by
  obtain ⟨record, content, u, hwire, hcontent, -, -⟩ := receive_eq_ok_iff.1 h
  obtain ⟨id, reader, transport, -, -, rfl⟩ := receiveWire_eq_ok_iff.1 hwire
  rw [contentOf_eq_ok_iff] at hcontent
  split at hcontent
  · obtain ⟨-, rfl⟩ := hcontent
    exact ⟨transport, reader, _, rfl⟩
  · obtain ⟨-, n, -, rfl⟩ := hcontent
    exact ⟨transport, reader, n, rfl⟩

/-! ### Indifference to the rest of a connection -/

def updating (s : Session τ ρ) (f : Connection → Connection) : Session τ ρ :=
  { s with connection := f s.connection }

/-- An update of a connection that has nothing to do with receiving a record: it leaves alone what
is looked at there, and it makes no difference whether it comes before what receiving does or
after. -/
structure Neutral (f : Connection → Connection) : Prop where
  link : ∀ c, (f c).link = c.link
  reader : ∀ c, (f c).reader = c.reader
  readProtection : ∀ c, (f c).readProtection = c.readProtection
  serverSequence : ∀ c, (f c).serverSequence = c.serverSequence
  with_reader : ∀ c reader, f { c with reader } = { f c with reader }
  with_sequence : ∀ c serverSequence, f { c with serverSequence } = { f c with serverSequence }

variable {f : Connection → Connection} {s t u : Session τ ρ} {r : Record}

theorem receiveWire_updating (hf : Neutral f) (h : receiveWire s = .ok r t) :
    receiveWire (s.updating f) = .ok r (t.updating f) := by
  obtain ⟨id, reader, transport, hlink, hread, rfl⟩ := receiveWire_eq_ok_iff.1 h
  apply receiveWire_eq_ok_iff.2
  refine ⟨id, reader, transport, (hf.link _).trans hlink, ?_, ?_⟩
  · have hreader : (s.updating f).connection.reader = s.connection.reader := hf.reader _
    rw [hreader]
    exact hread
  · exact congrArg (fun connection => { s with transport, connection }) (hf.with_reader _ _)

omit [Transport τ] in
theorem contentOf_updating (hf : Neutral f) {content : Bytes} (h : contentOf r s = .ok content t) :
    contentOf r (s.updating f) = .ok content (t.updating f) := by
  rw [contentOf_eq_ok_iff] at h ⊢
  have hread : (s.updating f).connection.readProtection = s.connection.readProtection :=
    hf.readProtection _
  have hsequence : (s.updating f).connection.serverSequence = s.connection.serverSequence :=
    hf.serverSequence _
  rw [hread, hsequence]
  cases hp : s.connection.readProtection with
  | none =>
    rw [hp] at h
    obtain ⟨rfl, rfl⟩ := h
    exact ⟨rfl, rfl⟩
  | some p =>
    rw [hp] at h
    obtain ⟨hcontent, n, hn, rfl⟩ := h
    refine ⟨hcontent, n, hn, ?_⟩
    exact congrArg (fun connection => { s with connection }) (hf.with_sequence _ _)

/-- An update of the rest of a connection commutes with receiving a record. -/
theorem receive_updating (hf : Neutral f) (h : receive s = .ok r t) :
    receive (s.updating f) = .ok r (t.updating f) := by
  obtain ⟨record, content, u, hwire, hcontent, hshort, rfl⟩ := receive_eq_ok_iff.1 h
  apply receive_eq_ok_iff.2
  exact ⟨record, content, u.updating f, receiveWire_updating hf hwire,
    contentOf_updating hf hcontent, hshort, rfl⟩

/-- The next records of a session are handshake records with the given fragments, in this order;
after them it is another one. -/
inductive Brings : Session τ ρ → List Bytes → Session τ ρ → Prop
  | nil (s : Session τ ρ) : Brings s [] s
  | cons {s t u : Session τ ρ} {r : Record} {fragments : List Bytes} (h : receive s = .ok r t)
    (hkind : r.contentType = .handshake) (rest : Brings t fragments u) :
    Brings s (r.fragment :: fragments) u

/-- What a session brings, it still brings after such an update. -/
theorem Brings.updating {fragments : List Bytes} (hf : Neutral f) (h : Brings s fragments u) :
    Brings (s.updating f) fragments (u.updating f) := by
  induction h with
  | nil s => exact .nil _
  | cons h hkind _ ih => exact .cons (receive_updating hf h) hkind ih

theorem Brings.append {before later : List Bytes} (h : Brings s before t)
    (h' : Brings t later u) : Brings s (before ++ later) u := by
  induction h with
  | nil s => exact h'
  | cons h hkind _ ih => exact .cons h hkind (ih h')

/-- A record that is received holds no more than a record may. -/
theorem Brings.length_le {fragments : List Bytes} (h : Brings s fragments u) :
    ∀ fragment ∈ fragments, fragment.length ≤ Record.maxPlaintext := by
  induction h with
  | nil s => intro fragment hmem; cases hmem
  | cons h _ _ ih =>
    intro fragment hmem
    rcases List.mem_cons.1 hmem with rfl | hmem
    · obtain ⟨record, content, _, -, -, hshort, rfl⟩ := receive_eq_ok_iff.1 h
      exact hshort
    · exact ih fragment hmem

end TlsClient.Session
