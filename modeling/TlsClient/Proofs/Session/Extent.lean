import TlsClient.Proofs.Session.Steps
import TlsClient.Simulation.Tape

namespace TlsClient

open Network Wire Wire.Parser

namespace HandshakeHeader

/-- Four bytes are a header, whatever they are. -/
theorem exists_header {bs : Bytes} (h : byteLength ≤ bs.length) :
    ∃ header rest, parse bs = .ok (header, rest) ∧ bs.length = byteLength + rest.length := by
  match bs, h with
  | a :: b :: c :: d :: rest, _ =>
    refine ⟨⟨.ofCode a, Bytes.toNat [b, c, d]⟩, rest, rfl, ?_⟩
    simp only [List.length_cons, byteLength]
    omega

/-- Fewer bytes are not. -/
theorem parse_of_short {bs : Bytes} (h : bs.length < byteLength) :
    parse bs = .error (.recoverable .eof) := by
  match bs, h with
  | [], _ => rfl
  | [_], _ => rfl
  | [_, _], _ => rfl
  | [_, _, _], _ => rfl

end HandshakeHeader

namespace Handshake

def frame : Parser (HandshakeHeader × Bytes) := do
  let header ← HandshakeHeader.parse
  let bytes ← take header.length
  return (header, bytes)

/-- What a message is read to once it is cut out. Nothing else has a part in it. -/
def ofFrame (suite : Option CipherSuite) : HandshakeHeader × Bytes → Except Failure Handshake
  | (header, bytes) =>
    match HandshakeBody.parse header.kind suite bytes with
    | .ok (body, []) => .ok ⟨header, body⟩
    | .ok (_, _ :: _) => .error (.fatal .lengthValue)
    | .error e => .error e

variable {suite : Option CipherSuite} {bs rest : Bytes} {n : Nat}
  {framed : HandshakeHeader × Bytes}

/-- A message is read by cutting it out and reading what was cut out. -/
theorem parse_eq_frame (suite : Option CipherSuite) (bs : Bytes) :
    parse suite bs = (frame bs).bind fun read => (ofFrame suite read.1).map (·, read.2) := by
  simp only [parse, frame, bind, StateT.bind, Except.bind]
  rcases HandshakeHeader.parse bs with e | ⟨header, left⟩
  · rfl
  · dsimp only
    rcases take header.length left with e | ⟨bytes, rest⟩
    · rfl
    · have hpure : (pure (header, bytes) : Parser (HandshakeHeader × Bytes)) rest =
          .ok ((header, bytes), rest) := rfl
      simp only [hpure, within, ofFrame]
      rcases HandshakeBody.parse header.kind suite bytes with e | ⟨body, _ | _⟩ <;> rfl

/-- A message is cut out exactly if all bytes are there that its header announces. -/
theorem frame_eq_ok_iff {header : HandshakeHeader} {bytes : Bytes} :
    frame bs = .ok ((header, bytes), rest) ↔
      HandshakeHeader.parse bs = .ok (header, bytes ++ rest) ∧ bytes.length = header.length := by
  simp only [frame, bind_eq_ok_iff, pure_eq_ok_iff, take_eq_ok_iff]
  constructor
  · rintro ⟨_, _, hheader, _, _, ⟨hlength, rfl⟩, ⟨⟩, rfl⟩
    exact ⟨hheader, hlength⟩
  · rintro ⟨hheader, hlength⟩
    exact ⟨header, _, hheader, bytes, rest, ⟨hlength, rfl⟩, rfl, rfl⟩

/-- What is cut out is the same whatever follows it. -/
theorem frame_append (more : Bytes) (h : frame bs = .ok (framed, rest)) :
    frame (bs ++ more) = .ok (framed, rest ++ more) := by
  obtain ⟨header, bytes⟩ := framed
  obtain ⟨hheader, hlength⟩ := frame_eq_ok_iff.1 h
  obtain ⟨hkind, hbound, rfl⟩ := HandshakeHeader.parse_eq_ok_iff.1 hheader
  refine frame_eq_ok_iff.2 ⟨HandshakeHeader.parse_eq_ok_iff.2 ⟨hkind, hbound, ?_⟩, hlength⟩
  simp only [List.append_assoc]

/-- A message that is complete can be cut out, and nothing of it is left. -/
theorem frame_of_complete (h : completeLength bs = some n) :
    ∃ framed, frame (bs.take n) = .ok (framed, []) := by
  obtain ⟨header, bytes, hheader, hlength, -⟩ := completeLength_eq_some_iff.1 (isFramed_take h)
  refine ⟨(header, bytes), frame_eq_ok_iff.2 ⟨by rwa [List.append_nil], ?_⟩⟩
  obtain ⟨-, -, hbytes⟩ := HandshakeHeader.parse_eq_ok_iff.1 hheader
  rw [hbytes, List.length_append, header.length_toBytes] at hlength
  omega

theorem frame_of_incomplete (h : completeLength bs = none) :
    frame bs = .error (.recoverable .eof) := by
  by_cases hshort : bs.length < HandshakeHeader.byteLength
  · simp only [frame, bind, StateT.bind, Except.bind, HandshakeHeader.parse_of_short hshort]
  · obtain ⟨header, rest, hheader, hlength⟩ := HandshakeHeader.exists_header (Nat.not_lt.1 hshort)
    have hmissing : rest.length < header.length := by
      refine Nat.lt_of_not_le fun hle => ?_
      have hcomplete := completeLength_eq_some_iff.2 ⟨header, rest, hheader, rfl, by omega⟩
      rw [h] at hcomplete
      cases hcomplete
    have htake : take header.length rest = .error (.recoverable .eof) := by
      rw [take, List.length_take, if_neg (by omega)]
    simp only [frame, bind, StateT.bind, Except.bind, hheader, htake]

/-- The length of a message is unknown exactly as long as it is not complete. -/
theorem completeLength_eq_none_iff :
    completeLength bs = none ↔ frame bs = .error (.recoverable .eof) := by
  refine ⟨frame_of_incomplete, fun h => Option.eq_none_iff_forall_ne_some.2 fun n hn => ?_⟩
  obtain ⟨framed, hframed⟩ := frame_of_complete hn
  have hwhole := frame_append (bs.drop n) hframed
  rw [List.take_append_drop, h] at hwhole
  cases hwhole

/-- What a message is read to, with what follows it as the rest. -/
theorem parse_take_append (h : completeLength bs = some n) (more : Bytes) :
    parse suite (bs.take n ++ more) =
      (parse suite (bs.take n)).map fun read => (read.1, more) := by
  obtain ⟨framed, hframed⟩ := frame_of_complete h
  rw [parse_eq_frame, parse_eq_frame, frame_append more hframed, hframed]
  simp only [Except.bind, List.nil_append]
  rcases ofFrame suite framed with e | message <;> rfl

/-- No body is read of a message that is not complete. -/
theorem parse_of_incomplete (h : completeLength bs = none) :
    parse suite bs = .error (.recoverable .eof) := by
  rw [parse_eq_frame, frame_of_incomplete h]
  rfl

/-- What a message that is read leaves is what was left when it was cut out. -/
theorem frame_of_parse {message : Handshake} (h : parse suite bs = .ok (message, rest)) :
    ∃ framed, frame bs = .ok (framed, rest) := by
  rw [parse_eq_frame] at h
  rcases hframe : frame bs with e | ⟨framed, left⟩
  · rw [hframe] at h
    cases h
  · rw [hframe] at h
    simp only [Except.bind] at h
    rcases hread : ofFrame suite framed with e | message'
    · rw [hread] at h
      cases h
    · rw [hread] at h
      cases h
      exact ⟨framed, rfl⟩

/-- A part of a message that is accepted is incomplete. -/
theorem incomplete_of_parse {message : Handshake} {part : Bytes}
    (h : parse suite bs = .ok (message, rest)) (hpart : part <+: bs)
    (hlength : part.length + rest.length < bs.length) : completeLength part = none := by
  obtain ⟨more, rfl⟩ := hpart
  refine Option.eq_none_iff_forall_ne_some.2 fun n hn => ?_
  -- Were the part complete, all that is missing from it would be left over.
  obtain ⟨framed, hframed⟩ := frame_of_complete hn
  obtain ⟨framed', hframed'⟩ := frame_of_parse h
  have hwhole := frame_append (part.drop n ++ more) hframed
  rw [← List.append_assoc, List.take_append_drop, List.nil_append, hframed'] at hwhole
  cases hwhole
  simp only [List.length_append] at hlength
  omega

/-- A message that is framed is read to the end if it is read at all. -/
theorem eq_nil_of_parse {message : Handshake} (hm : IsFramed bs)
    (h : parse suite bs = .ok (message, rest)) : rest = [] := by
  obtain ⟨framed, hframed⟩ := frame_of_complete hm
  obtain ⟨framed', hframed'⟩ := frame_of_parse h
  rw [List.take_length, hframed'] at hframed
  cases hframed
  rfl

end Handshake

theorem Session.isFramed_of_receiveMessage {τ ρ : Type} [Transport τ] {fuel : Nat}
    {s t : Session τ ρ} {m : Bytes} (h : receiveMessage fuel s = .ok m t) : Handshake.IsFramed m := by
  obtain ⟨u, -, hlast⟩ := (Proceeds.receiveMessage_gives fuel s).of_ok h
  cases hlast with
  | message hn => exact Handshake.isFramed_take hn

open Handshake in
/-- Framing and parsing agree on every byte string. The parser cuts a message out by its header and
reads what was cut out. A message is incomplete exactly if it cannot be cut out for want of bytes. Where
it is complete, it is read to what its own bytes are read to, with exactly what follows them left over;
whatever else follows them makes no difference. No part of a message that is accepted is accepted, with
this suite or another. A message that a session takes out of its records is refused or read to its
end. -/
theorem framing_exact (suite : Option CipherSuite) (bs : Bytes) :
    Handshake.parse suite bs =
      (frame bs).bind (fun read => (ofFrame suite read.1).map (·, read.2)) ∧
    (completeLength bs = none ↔ frame bs = .error (.recoverable .eof)) ∧
    (completeLength bs = none → Handshake.parse suite bs = .error (.recoverable .eof)) ∧
    (∀ n, completeLength bs = some n →
      (∃ header bytes, frame bs = .ok ((header, bytes), bs.drop n) ∧
        bs.take n = header.toBytes ++ bytes) ∧
      Handshake.parse suite bs =
        (Handshake.parse suite (bs.take n)).map (fun read => (read.1, bs.drop n)) ∧
      (∀ message rest, Handshake.parse suite (bs.take n) = .ok (message, rest) → rest = []) ∧
      ∀ more, Handshake.parse suite (bs.take n ++ more) =
        (Handshake.parse suite (bs.take n)).map fun read => (read.1, more)) ∧
    (∀ message rest, Handshake.parse suite bs = .ok (message, rest) → ∀ suite' part, part <+: bs →
      part.length + rest.length < bs.length →
        Handshake.parse suite' part = .error (.recoverable .eof)) ∧
    ∀ {τ ρ : Type} [Transport τ] (fuel : Nat) (s t : Session τ ρ),
      Session.receiveMessage fuel s = .ok bs t →
        (∃ e, Handshake.parse suite bs = .error e) ∨
          ∃ message, Handshake.parse suite bs = .ok (message, []) := by
  refine ⟨parse_eq_frame suite bs, completeLength_eq_none_iff, parse_of_incomplete, ?_, ?_, ?_⟩
  · intro n hn
    refine ⟨?_, ?_, fun message rest => eq_nil_of_parse (isFramed_take hn),
      parse_take_append hn⟩
    · obtain ⟨⟨header, bytes⟩, hframed⟩ := frame_of_complete hn
      have hwhole := frame_append (bs.drop n) hframed
      obtain ⟨hheader, -⟩ := frame_eq_ok_iff.1 hframed
      obtain ⟨-, -, hbytes⟩ := HandshakeHeader.parse_eq_ok_iff.1 hheader
      rw [List.take_append_drop] at hwhole
      exact ⟨header, bytes, hwhole, by rw [hbytes, List.append_nil]⟩
    · have hwhole : Handshake.parse suite (bs.take n ++ bs.drop n) = _ :=
        parse_take_append hn (bs.drop n)
      rwa [List.take_append_drop] at hwhole
  · intro message rest h suite' part hpart hlength
    exact parse_of_incomplete (incomplete_of_parse h hpart hlength)
  · intro τ ρ _ fuel s t h
    rcases hparse : Handshake.parse suite bs with e | ⟨message, rest⟩
    · exact .inl ⟨e, rfl⟩
    · obtain rfl := eq_nil_of_parse (Session.isFramed_of_receiveMessage h) hparse
      exact .inr ⟨message, rfl⟩

def Session.buffered : Session (Recorded Simulation.Tape) ScriptedSource :=
  { Simulation.Tape.client with
    connection := { Connection.fresh with handshakeBuffer := [14, 0, 0, 0, 14, 0] } }

open Handshake in
/-- The first message is read off the buffer as it is by itself, and three bytes of it are not. A body
of one byte is complete as well, though it is too short for a hello. -/
theorem buffered_framed :
    Handshake.parse none [14, 0, 0, 0, 14, 0] =
      .ok (⟨⟨.serverHelloDone, 0⟩, .serverHelloDone⟩, [14, 0]) ∧
    Handshake.parse none [14, 0, 0] = .error (.recoverable .eof) ∧
    frame [14, 0, 0] = .error (.recoverable .eof) ∧
    Handshake.parse none [2, 0, 0, 1, 3, 3] = .error (.recoverable .eof) ∧
    (∃ framed, frame [2, 0, 0, 1, 3, 3] = .ok (framed, [3])) ∧
    (∃ t, Session.receiveMessage 1 Session.buffered = .ok [14, 0, 0, 0] t) ∧
    ∃ message, Handshake.parse none [14, 0, 0, 0] = .ok (message, []) := by
  have hparse : Handshake.parse none [14, 0, 0, 0] =
      .ok (⟨⟨.serverHelloDone, 0⟩, .serverHelloDone⟩, []) := rfl
  have hreceive : ∃ t, Session.receiveMessage 1 Session.buffered = .ok [14, 0, 0, 0] t := ⟨_, rfl⟩
  obtain ⟨t, ht⟩ := hreceive
  obtain ⟨-, -, -, hwhole, -, -⟩ := framing_exact none [14, 0, 0, 0, 14, 0]
  obtain ⟨-, -, -, -, hpart, htaken⟩ := framing_exact none [14, 0, 0, 0]
  obtain ⟨-, hnone, -⟩ := framing_exact none [14, 0, 0]
  obtain ⟨-, -, -, hshort, -⟩ := framing_exact none [2, 0, 0, 1, 3, 3]
  obtain ⟨-, hmessage, -⟩ := hwhole 4 rfl
  obtain ⟨⟨header, bytes, hframed, -⟩, -⟩ := hshort 5 rfl
  refine ⟨hmessage.trans ?_, hpart _ _ hparse none [14, 0, 0] (by decide) (by decide),
    hnone.1 rfl, rfl, ⟨_, hframed⟩, ⟨t, ht⟩, ?_⟩
  · rw [show ([14, 0, 0, 0, 14, 0] : Bytes).take 4 = [14, 0, 0, 0] from rfl, hparse]
    rfl
  · exact (htaken 1 _ t ht).resolve_left fun ⟨e, he⟩ => nomatch hparse.symm.trans he

end TlsClient
