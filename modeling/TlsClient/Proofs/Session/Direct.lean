import TlsClient.Proofs.Session.Responder
import TlsClient.Simulation.Tape

namespace TlsClient.Session

open Network Simulation

variable {σ : Type} [RandomSource σ]

/-- A connection to a server: what the server has heard, and how much was taken of its answer. -/
structure Direct (p : Responder σ) where
  heard : Bytes
  taken : Nat

namespace Direct

variable {p : Responder σ}

def ahead (t : Direct p) : Bytes :=
  (p.answer t.heard).drop t.taken

def recv (t : Direct p) (limit : Nat) : Except TransportError Bytes × Direct p :=
  let bs := t.ahead.take limit
  (.ok bs, { t with taken := t.taken + bs.length })

instance : Transport (Direct p) where
  connect _ _ := (.ok ⟨0⟩, ⟨[], 0⟩)
  send t _ bs := (.ok bs.length, { t with heard := t.heard ++ bs })
  recv t _ limit := t.recv limit
  length_recv_le t _ limit bs h := by
    cases h
    exact List.length_take_le _ _
  isClosed _ _ := false
  close t _ := (.ok (), t)
  poll t := t

structure Carried (t : Direct p) (heard taken : Bytes) : Prop where
  heard_eq : t.heard = heard
  taken_eq : t.taken = taken.length
  answer_eq : p.answer heard = taken ++ t.ahead

variable {t : Direct p} {heard taken : Bytes}

theorem Carried.start : Carried (⟨[], 0⟩ : Direct p) [] [] :=
  ⟨rfl, rfl, rfl⟩

/-- What is left of the answer once a part of it was taken is the rest of it. -/
theorem Carried.of_answer {rest : Bytes} (hheard : t.heard = heard)
    (htaken : t.taken = taken.length) (h : p.answer heard = taken ++ rest) :
    Carried t heard taken := by
  refine ⟨hheard, htaken, ?_⟩
  rw [ahead, hheard, htaken, h, List.drop_left]

theorem Carried.send (h : Carried t heard taken) (bs : Bytes) :
    Carried (⟨t.heard ++ bs, t.taken⟩ : Direct p) (heard ++ bs) taken := by
  obtain ⟨more, hmore⟩ := p.answer_prefix heard bs
  have hanswer : p.answer (heard ++ bs) = taken ++ (t.ahead ++ more) := by
    rw [← hmore, h.answer_eq, List.append_assoc]
  exact of_answer (congrArg (· ++ bs) h.heard_eq) h.taken_eq hanswer

/-- What comes out of the connection comes in the order of the answer, and none of it twice. -/
theorem Carried.recv (h : Carried t heard taken) (limit : Nat) :
    Carried (t.recv limit).2 heard (taken ++ t.ahead.take limit) := by
  have hanswer : p.answer heard = taken ++ t.ahead.take limit ++ t.ahead.drop limit := by
    rw [List.append_assoc, List.take_append_drop]
    exact h.answer_eq
  refine of_answer h.heard_eq ?_ hanswer
  rw [List.length_append, ← h.taken_eq]
  rfl

theorem ahead_recv (t : Direct p) (limit : Nat) : (t.recv limit).2.ahead = t.ahead.drop limit := by
  have htaken : (t.recv limit).2.ahead = t.ahead.drop (t.ahead.take limit).length := by
    rw [ahead, ahead, List.drop_drop]
    rfl
  rw [htaken, List.length_take]
  rcases Nat.le_total limit t.ahead.length with hle | hge
  · rw [Nat.min_eq_left hle]
  · rw [Nat.min_eq_right hge, List.drop_length, List.drop_of_length_le hge]

/-- With every attempt as much arrives as can be asked for, until nothing is left. -/
theorem arrivals_eq (id : LinkId) (n : Nat) (t : Direct p) :
    arrivals id n t = t.ahead.take (RecordReader.receiveLimit * n) := by
  induction n generalizing t with
  | zero => rw [arrivals, Nat.mul_zero, List.take_zero]
  | succ n ih =>
    have hrecv : Transport.recv t id RecordReader.receiveLimit =
        (.ok (t.ahead.take RecordReader.receiveLimit), (t.recv RecordReader.receiveLimit).2) := rfl
    have hnext := ih (t.recv RecordReader.receiveLimit).2
    rw [ahead_recv] at hnext
    have hsplit : t.ahead.take (RecordReader.receiveLimit * (n + 1)) =
        t.ahead.take RecordReader.receiveLimit ++
          (t.ahead.drop RecordReader.receiveLimit).take (RecordReader.receiveLimit * n) := by
      rw [Nat.mul_succ, Nat.add_comm, List.take_add]
    rw [arrivals, hrecv, hsplit, ← hnext]
    cases t.ahead.take RecordReader.receiveLimit with
    | nil => rfl
    | cons b bs => rfl

/-- A server is heard and answered over it. -/
theorem carries (p : Responder σ) {polls : Nat} (hpolls : 5 ≤ polls) :
    Carries ⟨0⟩ polls p.answer (Carried : Direct p → Bytes → Bytes → Prop) := by
  constructor
  case send =>
    intro t heard taken bs h
    exact ⟨_, rfl, h.send bs⟩
  case recv =>
    intro t heard taken h
    exact ⟨_, _, rfl, h.recv _⟩
  case poll =>
    intro t heard taken h
    exact h
  case taken =>
    intro t heard taken h
    exact ⟨_, h.answer_eq.symm⟩
  case isOpen =>
    intro t heard taken h _
    rfl
  case prompt =>
    intro t heard taken records r h hall hbefore hanswer
    refine ⟨5, hpolls, ?_⟩
    have hr := hall r (List.mem_append_right _ (List.mem_singleton_self r))
    have hmore : taken ++ arrivals ⟨0⟩ 5 t <+: p.answer heard := by
      rw [h.answer_eq, arrivals_eq]
      exact (List.prefix_append_right_inj taken).2 (List.take_prefix _ _)
    apply List.prefix_of_prefix_length_le hanswer hmore
    -- Five times as much as can be asked for is more than a record.
    have hlimit : RecordReader.receiveLimit = 4096 := rfl
    have hmax : Record.maxCiphertext = 18432 := rfl
    have hrecord : r.toBytes.length ≤ 5 + Record.maxCiphertext := by
      rw [Record.toBytes_eq, List.length_append, RecordHeader.length_toBytes]
      exact Nat.add_le_add_left hr.length_le 5
    have hle := hbefore.length_le
    have htotal := hanswer.length_le
    rw [h.answer_eq, List.length_append] at htotal
    rw [wire_append, wire_singleton, List.length_append] at htotal ⊢
    rw [arrivals_eq, List.length_append, List.length_take]
    omega

end Direct

def sampleHello : ServerHello where
  version := .tls12
  random := ⟨0, Octets.ofBytes 28 []⟩
  sessionId := .empty
  suite := .rsaAes128GcmSha256
  compression := .null
  extensions := none

def sampleAnswer : Answer :=
  ⟨sampleHello.message, CertificateChain.message ⟨[Tape.certificate]⟩, 1, 0, 0⟩

def sampleRecords : List Record :=
  [inClear .handshake (sampleAnswer.messages.flatten.take 60),
    inClear .handshake (sampleAnswer.messages.flatten.drop 60)]

def sampleFlight : ServerFlight where
  hello := sampleHello
  chain := ⟨[Tape.certificate]⟩
  leaf := Tape.certificate
  key := Tape.key
  early := 1
  middle := 0
  late := 0
  records := sampleRecords
  version := rfl
  compression := rfl
  hello_writable := ⟨rfl, rfl, rfl, nofun⟩
  hello_length := by decide +kernel
  chain_places := by decide
  chain_length := by decide +kernel
  leaf_eq := rfl
  key_eq := by decide +kernel
  key_length := by decide +kernel
  plain := by
    intro r hr
    have hshort : ∀ r ∈ sampleRecords, r.fragment.length ≤ Record.maxPlaintext := by
      decide +kernel
    have hlength := hshort r hr
    simp only [sampleRecords, List.mem_cons, List.not_mem_nil, or_false] at hr
    rcases hr with rfl | rfl
    · exact ⟨rfl, rfl, hlength⟩
    · exact ⟨rfl, rfl, hlength⟩
  fragments := by decide +kernel

def sampleServer : Responder ScriptedSource where
  flight := sampleFlight
  secret := ⟨Tape.key.modulus.value, 1⟩
  inverts := by
    have hone : sampleFlight.key.exponent.value = 1 := rfl
    refine ⟨rfl, ?_⟩
    intro x hx
    rw [hone, Nat.mul_one, Nat.pow_one, Nat.mod_eq_of_lt hx]
  random := .ofBytes []

def clientOf (p : Responder σ) : Session (Direct p) ScriptedSource :=
  .start ⟨[], 0⟩ .standard (.ofBytes [])

end TlsClient.Session
