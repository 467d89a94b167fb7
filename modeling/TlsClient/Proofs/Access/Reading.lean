import TlsClient.Proofs.Access.Messages
import TlsClient.Proofs.Session.Bounds
import TlsClient.Record.Reader

namespace TlsClient.RecordReader.Checked

open Network

def cut (header : RecordHeader) (buffer : Bytes) : Checked (Option (Record × RecordReader)) := do
  let stop := RecordHeader.byteLength + header.length
  if buffer.length < stop then return none
  else
    let fragment ← Checked.slice RecordHeader.byteLength stop buffer
    let (_, rest) ← Checked.splitAt stop buffer
    return some (⟨header.contentType, header.version, fragment⟩, ⟨rest⟩)

/-- A record is cut out only once all that its header announces has arrived. -/
theorem cut_eq (header : RecordHeader) (rest : Bytes) :
    cut header (header.toBytes ++ rest) = .ok (match Wire.Parser.take header.length rest with
      | .error _ => none
      | .ok (fragment, rest) => some (⟨header.contentType, header.version, fragment⟩, ⟨rest⟩)) := by
  have hlength : (header.toBytes ++ rest).length = RecordHeader.byteLength + rest.length := by
    rw [List.length_append, RecordHeader.length_toBytes]
  unfold cut Wire.Parser.take
  dsimp only
  by_cases hle : header.length ≤ rest.length
  · have hstop : RecordHeader.byteLength + header.length ≤ (header.toBytes ++ rest).length := by omega
    have htake : (rest.take header.length).length = header.length := List.length_take_of_le hle
    have hheader : header.toBytes.length = RecordHeader.byteLength := header.length_toBytes
    rw [if_neg (Nat.not_lt.2 hstop), Checked.slice_eq (Nat.le_add_right _ _) hstop, Checked.ok_bind,
      Checked.splitAt_eq hstop, Checked.ok_bind, if_pos htake, ← hheader, List.take_length_add_append,
      List.drop_left, List.drop_length_add_append]
    rfl
  · have hshort : (rest.take header.length).length ≠ header.length := by
      rw [List.length_take]
      omega
    rw [if_pos (by omega), if_neg hshort]
    rfl

def next? (r : RecordReader) : Checked.Attempt Error (Option (Record × RecordReader)) := do
  if r.buffer.length < RecordHeader.byteLength then return none
  else
    let header ← Wire.Parser.Checked.parse RecordHeader.Checked.parse r.buffer
    match header.contentType with
    | .unknown code => throw (.invalidContentType code)
    | _ =>
      if header.length > Record.maxCiphertext then throw (.tooLong header.length Record.maxCiphertext)
      else cut header r.buffer

/-- Reading a record stays within what has arrived, whatever its header announces. -/
theorem next?_eq (r : RecordReader) : next? r = Checked.outcome r.next? := by
  rw [next?, RecordHeader.Checked.parse_eq, Wire.Parser.Checked.parse_lift, RecordReader.next?]
  by_cases hshort : r.buffer.length < RecordHeader.byteLength
  · rw [if_pos hshort, RecordHeader.parse_of_short hshort]
    rfl
  · obtain ⟨header, rest, hheader, -⟩ := RecordHeader.exists_header (Nat.not_lt.1 hshort)
    obtain ⟨-, -, -, hbuffer⟩ := RecordHeader.parse_eq_ok_iff.1 hheader
    have hparse : RecordHeader.parse.parse r.buffer = .ok header := by
      rw [Wire.Parser.parse, hheader]
    rw [if_neg hshort, hparse, hheader, Checked.outcome_ok, pure_bind, hbuffer, cut_eq]
    obtain ⟨contentType, version, length⟩ := header
    cases contentType with
    | unknown code => rfl
    | _ =>
      dsimp only
      split
      · rfl
      · cases Wire.Parser.take length rest <;> rfl

def read {τ : Type} [Transport τ] (id : LinkId) :
    (polls : Nat) → RecordReader → τ → Checked (Except Error Record × RecordReader × τ)
  | 0, r, t => do
    match ← (next? r).run with
    | .ok (some (record, r)) => return (.ok record, r, t)
    | .ok none => return (.error .timeout, r, t)
    | .error e => return (.error e, r, t)
  | polls + 1, r, t => do
    match ← (next? r).run with
    | .ok (some (record, r)) => return (.ok record, r, t)
    | .error e => return (.error e, r, t)
    | .ok none =>
      match Transport.recv t id receiveLimit with
      | (.error e, t) => return (.error (.transport e), r, t)
      | (.ok [], t) =>
        if Transport.isClosed t id then return (.error .connectionClosed, r, t)
        else read id polls r (Transport.poll t)
      | (.ok bs, t) =>
        -- How many bytes were written to the array is what the transport says.
        Checked.touch (.slice 0 bs.length receiveLimit)
        read id polls (r.append bs) t

/-- A transport brings no more than there is room for, so nothing is written behind the array. -/
theorem read_eq {τ : Type} [Transport τ] (id : LinkId) (polls : Nat) (r : RecordReader) (t : τ) :
    read id polls r t = .ok (r.read id polls t) := by
  induction polls generalizing r t with
  | zero =>
    rw [read, next?_eq, RecordReader.read]
    rcases r.next? with e | (_ | ⟨record, r⟩) <;> rfl
  | succ polls ih =>
    rw [read, next?_eq, RecordReader.read]
    rcases r.next? with e | (_ | ⟨record, r⟩)
    · rfl
    · have hlimit := Transport.length_recv_le t id receiveLimit
      show (match Transport.recv t id receiveLimit with
        | (.error e, t) => _
        | (.ok [], t) => _
        | (.ok bs, t) => _ : Checked _) = _
      rcases hrecv : Transport.recv t id receiveLimit with ⟨e | (_ | ⟨b, bs⟩), t⟩
      · rfl
      · dsimp only
        split
        · rfl
        · exact ih r _
      · have hroom : (Access.slice 0 (b :: bs).length receiveLimit).InRange :=
          ⟨Nat.zero_le _, hlimit _ (by rw [hrecv])⟩
        dsimp only
        rw [Checked.touch_eq hroom, Checked.ok_bind]
        exact ih _ t
    · rfl

end TlsClient.RecordReader.Checked
