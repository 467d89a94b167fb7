import TlsClient.Proofs.Record.Contents
import TlsClient.Proofs.Session.Steps

namespace TlsClient

open Network

namespace RecordReader

/-- As long as no record is complete, the reader holds less than the longest record. -/
theorem length_of_next?_eq_none {r : RecordReader} (h : r.next? = .ok none) :
    r.buffer.length ≤ 5 + 18432 - 1 := by
  have hheader : RecordHeader.byteLength = 5 := rfl
  have hmax : Record.maxCiphertext = 18432 := rfl
  rcases next?_eq_none_iff.1 h with hshort | ⟨header, rest, hp, hfault, hmissing⟩
  · omega
  · obtain ⟨-, hlength⟩ := RecordHeader.fault?_eq_none_iff.1 hfault
    obtain ⟨-, -, -, hbuffer⟩ := RecordHeader.parse_eq_ok_iff.1 hp
    rw [hbuffer, List.length_append, RecordHeader.length_toBytes]
    omega

/-- One attempt brings no more than it asked for. -/
theorem length_of_attempt {τ : Type} [Transport τ] {id : LinkId} {t u : τ} {bytes : Bytes}
    (h : attempt id t = (.ok bytes, u)) : bytes.length ≤ 4096 := by
  apply Transport.length_recv_le t id receiveLimit
  unfold attempt at h
  split at h
  · cases h
  · rename_i hrecv
    rw [hrecv]
    split at h <;> cases h
    rfl
  · rename_i hrecv
    cases h
    rw [hrecv]

end RecordReader

structure Connection.Bounded (c : Connection) : Prop where
  reader_le : c.reader.buffer.length ≤ 5 + 18432 - 1 + 4096
  handshakeBuffer_le : c.handshakeBuffer.length ≤ 65536 - 1 + 16384
  manageable : Session.Manageable c.handshakeBuffer
  pending_le : c.pending.length ≤ 16384

namespace Session

variable {τ ρ : Type}

def Output.Limited : Output → Prop
  | .quiet => True
  | .message bytes => bytes.length ≤ 65536
  | .content bytes => bytes.length ≤ 16384
  | .data bytes => bytes.length ≤ 16384

/-- What is waited with is shorter than the longest message. -/
theorem Waits.length_le {b : Bytes} (h : Waits b) : b.length ≤ 65536 - 1 := by
  cases hb : Handshake.announced b with
  | none =>
    have hfew := Handshake.announced_eq_none_iff.1 hb
    omega
  | some n =>
    obtain ⟨hmore, hlimit⟩ := h n hb
    have hmax : messageLimit = 65536 := rfl
    omega

section

variable [Transport τ] {s t : Session τ ρ} {out : Output}

/-- One step keeps the bounds and hands on nothing beyond the limits. -/
theorem Step.bounded (h : Step s out t) (hs : s.connection.Bounded) :
    t.connection.Bounded ∧ out.Limited := by
  have hrecord : Record.maxPlaintext = 16384 := rfl
  have hmessage : messageLimit = 65536 := rfl
  cases h with
  | aside htransport hreader hbuffer hpending =>
    refine ⟨⟨?_, ?_, ?_, ?_⟩, trivial⟩
    · rcases hreader with h | h
      · exact h ▸ hs.reader_le
      · exact h ▸ Nat.zero_le _
    · rcases hbuffer with h | h
      · exact h ▸ hs.handshakeBuffer_le
      · exact h ▸ Nat.zero_le _
    · rcases hbuffer with h | h
      · exact h ▸ hs.manageable
      · exact h ▸ manageable_nil
    · rcases hpending with h | h
      · exact h ▸ hs.pending_le
      · exact h ▸ Nat.zero_le _
  | connects peer => exact ⟨hs, trivial⟩
  | sends id bytes => exact ⟨hs, trivial⟩
  | closes id => exact ⟨hs, trivial⟩
  | arrives hnext hattempt =>
    -- The reader has no complete record, so what arrives is all that goes beyond the longest one.
    have hincomplete := RecordReader.length_of_next?_eq_none hnext
    have hfew := RecordReader.length_of_attempt hattempt
    refine ⟨{ hs with reader_le := ?_ }, trivial⟩
    show (s.connection.reader.buffer ++ _).length ≤ _
    rw [List.length_append]
    omega
  | fails hnext hattempt => exact ⟨hs, trivial⟩
  | record hnext =>
    obtain ⟨-, hbuffer⟩ := RecordReader.next?_eq_some hnext
    have hle := hs.reader_le
    rw [hbuffer, List.length_append] at hle
    exact ⟨{ hs with reader_le := Nat.le_trans (Nat.le_add_left _ _) hle }, trivial⟩
  | gathers hshort hwaits =>
    -- The message that is missing is not too long, and the record is too short to go far beyond it.
    have hwaiting := hwaits.length_le
    refine ⟨{ hs with
      handshakeBuffer_le := ?_
      manageable := hwaits.manageable_append hshort }, ?_⟩
    · show (s.connection.handshakeBuffer ++ _).length ≤ _
      rw [List.length_append]
      omega
    · exact hshort
  | message h =>
    -- That the message is within the limit was settled when its last record came.
    obtain ⟨hn, hle⟩ := Handshake.completeLength_eq_some_iff_announced.1 h
    refine ⟨{ hs with
      handshakeBuffer_le := ?_
      manageable := hs.manageable.drop hn hle }, ?_⟩
    · have hfewer := hs.handshakeBuffer_le
      show (s.connection.handshakeBuffer.drop _).length ≤ _
      rw [List.length_drop]
      omega
    · have hlimit := (hs.manageable _ hn hle).1
      show (s.connection.handshakeBuffer.take _).length ≤ _
      rw [List.length_take]
      omega
  | brings hshort =>
    exact ⟨{ hs with pending_le := hshort }, hshort⟩
  | handsOut room =>
    have hle := hs.pending_le
    refine ⟨{ hs with pending_le := ?_ }, ?_⟩
    · show (s.connection.pending.drop room).length ≤ _
      rw [List.length_drop]
      omega
    · show (s.connection.pending.take room).length ≤ _
      rw [List.length_take]
      omega

/-- By induction on the steps, the bounds hold after any number of them. -/
theorem Steps.bounded (h : Steps s t) (hs : s.connection.Bounded) : t.connection.Bounded :=
  h.preserve (P := fun s => s.connection.Bounded) (fun _ _ _ hstep hs => (hstep.bounded hs).1) hs

omit [Transport τ] in
theorem start_bounded (t : τ) (config : Config) (random : ρ) :
    (start t config random).connection.Bounded :=
  ⟨Nat.zero_le _, Nat.zero_le _, manageable_nil, Nat.zero_le _⟩

/-- Every session that a client can hold is within the bounds. -/
theorem Reachable.bounded [RandomSource ρ] (hs : Reachable s) : s.connection.Bounded :=
  hs.of_steps (P := fun s => s.connection.Bounded) start_bounded
    fun _ _ _ hstep hs => (hstep.bounded hs).1

/-- What is bounded at one point of a call: the buffers, and all that goes on from there. -/
structure Confined (s : Session τ ρ) : Prop where
  reader_le : s.connection.reader.buffer.length ≤ 5 + 18432 - 1 + 4096
  handshakeBuffer_le : s.connection.handshakeBuffer.length ≤ 65536 - 1 + 16384
  pending_le : s.connection.pending.length ≤ 16384
  /-- Every message that is parsed. -/
  message_le : ∀ fuel message t, receiveMessage fuel s = .ok message t → message.length ≤ 65536
  /-- The content of every record that is received. -/
  content_le : ∀ record t, receive s = .ok record t → record.fragment.length ≤ 16384
  /-- The data that every call hands out. -/
  data_le : ∀ fuel room data t, recv fuel room s = .ok data t → data.length ≤ 16384
  output_le : ∀ out t, Step s out t → out.Limited

/-- A session within the bounds is confined in all that it goes on with. -/
theorem confined_of_bounded (hs : s.connection.Bounded) : s.Confined where
  reader_le := hs.reader_le
  handshakeBuffer_le := hs.handshakeBuffer_le
  pending_le := hs.pending_le
  message_le fuel message t h := by
    obtain ⟨u, hu, hlast⟩ := (Proceeds.receiveMessage_gives fuel s).of_ok h
    exact (hlast.bounded (hu.bounded hs)).2
  content_le record t h := ((Proceeds.receive_gives s).of_ok h).2.1
  data_le fuel room data t h := by
    obtain ⟨u, hu, hlast⟩ := (Proceeds.recv_gives fuel room s).of_ok h
    exact (hlast.bounded (hu.bounded hs)).2
  output_le out t h := (h.bounded hs).2

/-- A client's calls, the parts that they are put together from, and every attempt to receive go on
by steps; at every step on the way no buffer holds more than its bound, and no message and no content
beyond the limits is handed on. -/
theorem buffers_bounded [RandomSource ρ] (hs : Reachable s) :
    (∀ fuel now host peer, Steps s (after (handshake fuel now host peer) s)) ∧
    (∀ c, Steps s (after (perform c) s)) ∧
    ∀ u, Steps s u →
      u.Confined ∧
      (∀ (α : Type) (a : Action τ ρ α), Part a → Steps u (after a u)) ∧
      ∀ id polls, Steps u { u with
        transport := (u.connection.reader.read id polls u.transport).2.2
        connection.reader := (u.connection.reader.read id polls u.transport).2.1 } :=
  ⟨fun fuel now host peer => (Part.handshake fuel now host peer).steps s, fun c => call_steps c s,
    fun u hu => ⟨confined_of_bounded (hu.bounded hs.bounded), fun _ _ ha => ha.steps u,
      fun id polls => read_steps id polls u⟩⟩

end

open Simulation in
/-- The buffers of the recorded server's client stay within their bounds in its handshake and in all
that it receives. -/
theorem sample_confined : Reachable Tape.client ∧
    Steps Tape.client (after Tape.handshake Tape.client) ∧
    (after Tape.handshake Tape.client).Confined ∧
    (after (perform (.recv 5 9)) (after Tape.handshake Tape.client)).Confined := by
  have hstart : Reachable Tape.client := .start ..
  have hshake : Reachable (after Tape.handshake Tape.client) :=
    .handshake hstart 100 ⟨0, 0⟩ "" .unspecified
  obtain ⟨hhandshake, -, hconfined⟩ := buffers_bounded hstart
  obtain ⟨-, hcall, hconfined'⟩ := buffers_bounded hshake
  have hsteps := hhandshake 100 ⟨0, 0⟩ "" .unspecified
  exact ⟨hstart, hsteps, (hconfined _ hsteps).1, (hconfined' _ (hcall (.recv 5 9))).1⟩

end Session
end TlsClient
