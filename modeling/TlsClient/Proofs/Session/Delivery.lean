import TlsClient.Proofs.Record.Delivery
import TlsClient.Proofs.Session.Boundaries

/-!
What reaches a session over a transport that carries bytes. A session that is `Attached` to such a
transport receives the records of the answer one after the other, and the handshake messages in
them, however they are spread over the records; what it sends is heard at the other end.
-/

namespace TlsClient.Session

open Network Handshake

variable {τ ρ : Type} [Transport τ]
variable {id : LinkId} {polls : Nat} {answer : Bytes → Bytes} {I : τ → Bytes → Bytes → Prop}

/-- The session has a transport over which `heard` was sent, and of the answer it has received
`before` and what is in its reader. -/
structure Attached (id : LinkId) (polls : Nat) (I : τ → Bytes → Bytes → Prop) (s : Session τ ρ)
    (heard before : Bytes) : Prop where
  link : s.connection.link = some id
  polls : s.config.pollLimit = polls
  carried : I s.transport heard (before ++ s.connection.reader.buffer)

variable {s t u : Session τ ρ} {heard : Bytes} {records : List Record} {r : Record}

def reading (s : Session τ ρ) (transport : τ) (reader : RecordReader) : Session τ ρ :=
  { s with transport, connection := { s.connection with reader } }

/-! ### Records -/

/-- The next record on the wire is received, whatever its arrival takes. -/
theorem receiveWire_delivers (hc : Carries id polls answer I)
    (h : Attached id polls I s heard (wire records)) (hall : ∀ x ∈ records ++ [r], x.Acceptable)
    (hanswer : wire (records ++ [r]) <+: answer heard) :
    ∃ transport reader, receiveWire s = .ok r (s.reading transport reader) ∧
      Attached id polls I (s.reading transport reader) heard (wire (records ++ [r])) := by
  obtain ⟨rest, transport, hread, hI⟩ := RecordReader.read_delivers hc hall hanswer h.carried
  refine ⟨transport, ⟨rest⟩, ?_, h.link, h.polls, hI⟩
  apply receiveWire_eq_ok_iff.2
  refine ⟨id, ⟨rest⟩, transport, h.link, ?_, rfl⟩
  rw [h.polls]
  exact hread

/-- In the clear the content of a record is its fragment. -/
theorem receive_delivers (hc : Carries id polls answer I)
    (h : Attached id polls I s heard (wire records)) (hall : ∀ x ∈ records ++ [r], x.Acceptable)
    (hshort : r.fragment.length ≤ Record.maxPlaintext)
    (hanswer : wire (records ++ [r]) <+: answer heard)
    (hclear : s.connection.readProtection = none) :
    ∃ transport reader, receive s = .ok r (s.reading transport reader) ∧
      Attached id polls I (s.reading transport reader) heard (wire (records ++ [r])) := by
  obtain ⟨transport, reader, hwire, hattached⟩ := receiveWire_delivers hc h hall hanswer
  refine ⟨transport, reader, ?_, hattached⟩
  apply receive_eq_ok_iff.2
  refine ⟨r, r.fragment, s.reading transport reader, hwire, ?_, hshort, rfl⟩
  rw [contentOf_eq_ok_iff]
  have hclear' : (s.reading transport reader).connection.readProtection = none := hclear
  rw [hclear']
  exact ⟨rfl, rfl⟩

structure Plain (r : Record) : Prop where
  kind : r.contentType = .handshake
  version : r.version.Canonical
  length_le : r.fragment.length ≤ Record.maxPlaintext

theorem Plain.acceptable (h : Plain r) : r.Acceptable := by
  refine ⟨?_, h.version, Nat.le_trans h.length_le (by decide)⟩
  rw [h.kind]
  intro code
  exact nofun

/-- Handshake records in the clear that are next on the wire are brought one after the other. -/
theorem brings_of_plain (hc : Carries id polls answer I)
    (h : Attached id polls I s heard (wire records)) (hall : ∀ x ∈ records, x.Acceptable)
    {more : List Record} (hmore : ∀ r ∈ more, Plain r)
    (hanswer : wire (records ++ more) <+: answer heard)
    (hclear : s.connection.readProtection = none) :
    ∃ transport reader, Brings s (more.map Record.fragment) (s.reading transport reader) ∧
      Attached id polls I (s.reading transport reader) heard (wire (records ++ more)) := by
  induction more generalizing s records with
  | nil =>
    rw [List.append_nil]
    exact ⟨s.transport, s.connection.reader, .nil s, h⟩
  | cons r more ih =>
    obtain ⟨hr, hrest⟩ := List.forall_mem_cons.1 hmore
    have hsplit : records ++ r :: more = records ++ [r] ++ more := by simp
    rw [hsplit] at hanswer ⊢
    have hfirst : wire (records ++ [r]) <+: answer heard := by
      rw [wire_append] at hanswer
      exact (List.prefix_append _ _).trans hanswer
    have hall' : ∀ x ∈ records ++ [r], x.Acceptable :=
      List.forall_mem_append.2 ⟨hall, List.forall_mem_singleton.2 hr.acceptable⟩
    obtain ⟨transport, reader, hreceive, hattached⟩ :=
      receive_delivers hc h hall' hr.length_le hfirst hclear
    obtain ⟨transport', reader', hbrings, hattached'⟩ := ih hattached hall' hrest hanswer hclear
    exact ⟨transport', reader', .cons hreceive hr.kind hbrings, hattached'⟩

/-! ### Messages -/

/-- Reading in the clear changes nothing but the transport and the reader. -/
theorem Brings.eq_reading {fragments : List Bytes} (h : Brings s fragments u)
    (hclear : s.connection.readProtection = none) :
    u = s.reading u.transport u.connection.reader := by
  induction h with
  | nil s => rfl
  | cons h hkind hrest ih =>
    rename_i s t u r fragments
    obtain ⟨record, content, v, hwire, hcontent, -, -⟩ := receive_eq_ok_iff.1 h
    obtain ⟨_, reader, transport, -, -, hv⟩ := receiveWire_eq_ok_iff.1 hwire
    have hreading : v = s.reading transport reader := hv
    have hv : v.connection.readProtection = none := by
      rw [hreading]
      exact hclear
    rw [contentOf_eq_ok_iff, hv] at hcontent
    obtain ⟨-, rfl⟩ := hcontent
    rw [ih hv, hreading]
    rfl

/-- The session brings handshake records with these fragments, and together with what it has
buffered they are these messages. When the records are read, `P` holds of transport and reader. -/
structure Ahead (P : τ → RecordReader → Prop) (s : Session τ ρ)
    (fragments messages : List Bytes) : Prop where
  brings : ∃ u, Brings s fragments u ∧ P u.transport u.connection.reader
  bytes : s.connection.handshakeBuffer ++ fragments.flatten = messages.flatten
  manageable : Manageable s.connection.handshakeBuffer
  /-- The last record is not empty, so with the last message all of them are read. -/
  last : fragments.getLast? ≠ some []

variable {P : τ → RecordReader → Prop} {fragments messages : List Bytes} {m : Bytes}

/-- Messages that are ahead stay so while the connection is updated elsewhere. -/
theorem Ahead.updating {f : Connection → Connection} (hf : Neutral f)
    (hbuffer : ∀ c, (f c).handshakeBuffer = c.handshakeBuffer)
    (h : Ahead P s fragments messages) :
    Ahead P (s.updating f) fragments messages := by
  have hsame : (s.updating f).connection.handshakeBuffer = s.connection.handshakeBuffer :=
    hbuffer s.connection
  obtain ⟨u, hbrings, hP⟩ := h.brings
  have hread : (u.updating f).connection.reader = u.connection.reader := hf.reader _
  constructor
  · refine ⟨u.updating f, hbrings.updating hf, ?_⟩
    rw [hread]
    exact hP
  · rw [hsame]
    exact h.bytes
  · rw [hsame]
    exact h.manageable
  · exact h.last

/-- With no message ahead everything is read. -/
theorem Ahead.done (h : Ahead P s fragments []) :
    s.connection.handshakeBuffer = [] ∧ P s.transport s.connection.reader := by
  obtain ⟨hbuffer, hflat⟩ := List.append_eq_nil_iff.1 h.bytes
  have hnil : fragments = [] := by
    rcases List.eq_nil_or_concat fragments with hnil | ⟨init, last, hlast⟩
    · exact hnil
    · rw [List.concat_eq_append] at hlast
      have hempty : last = [] := List.flatten_eq_nil_iff.1 hflat last (by simp [hlast])
      exact absurd (by rw [hlast, List.getLast?_concat, hempty]) h.last
  obtain ⟨u, hbrings, hP⟩ := h.brings
  subst hnil
  cases hbrings
  exact ⟨hbuffer, hP⟩

/-- The next message is received, and then the others are ahead. -/
theorem Ahead.next (h : Ahead P s fragments (m :: messages)) (hm : IsFramed m)
    (hlimit : m.length ≤ messageLimit) {fuel : Nat} (hfuel : fragments.length < fuel)
    (hclear : s.connection.readProtection = none) :
    ∃ transport reader buffer left,
      receiveMessage fuel s = .ok m ((s.reading transport reader).buffering buffer) ∧
        Ahead P ((s.reading transport reader).buffering buffer) left messages ∧
        left.length ≤ fragments.length := by
  obtain ⟨u, hbrings, hP⟩ := h.brings
  have hannounced : announced (m ++ messages.flatten) = some m.length :=
    announced_append _ (completeLength_eq_some_iff_announced.1 hm).1
  have houtcome := receiveMessage_outcome hbrings h.manageable hfuel
  rw [h.bytes, List.flatten_cons] at houtcome
  cases houtcome with
  | message hn hle hcomplete hresult hparts hreads hbytes hmanageable =>
    rename_i n taken left t
    obtain rfl := Option.some.inj (hannounced.symm.trans hn)
    rw [List.take_left] at hresult hbytes
    have hread : t.buffering s.connection.handshakeBuffer =
        s.reading t.transport t.connection.reader := hreads.taken.eq_reading hclear
    have ht : t = (s.reading t.transport t.connection.reader).buffering
        t.connection.handshakeBuffer := by
      rw [← hread]
      rfl
    refine ⟨t.transport, t.connection.reader, t.connection.handshakeBuffer, left, ?_, ?_, ?_⟩
    · rw [← ht]
      exact hresult
    · rw [← ht]
      constructor
      · exact ⟨_, hreads.left, hP⟩
      · -- What was read and is not the message is what the other messages begin with.
        have hall := h.bytes
        rw [← hparts, List.flatten_append, ← List.append_assoc, hbytes, List.append_assoc,
          List.flatten_cons] at hall
        exact List.append_cancel_left hall
      · exact hmanageable
      · intro hempty
        rcases List.eq_nil_or_concat left with rfl | ⟨init, last, rfl⟩
        · cases hempty
        · apply h.last
          rw [← hparts, List.concat_eq_append, ← List.append_assoc, List.getLast?_concat]
          rwa [List.concat_eq_append, List.getLast?_concat] at hempty
    · rw [← hparts, List.length_append]
      exact Nat.le_add_left _ _
  | overlong hn hlong _ _ _ _ =>
    obtain rfl := Option.some.inj (hannounced.symm.trans hn)
    exact absurd hlimit (Nat.not_le.2 hlong)
  | more hwaits _ =>
    obtain ⟨hmore, -⟩ := hwaits _ hannounced
    rw [List.length_append] at hmore
    omega

end TlsClient.Session
