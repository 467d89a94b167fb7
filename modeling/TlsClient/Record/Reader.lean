import TlsClient.Error
import TlsClient.Message.Record

namespace TlsClient

open Network

/-- Bytes that have arrived and were not handed out as records yet. -/
structure RecordReader where
  buffer : Bytes
deriving DecidableEq

namespace RecordReader

def empty : RecordReader := ⟨[]⟩

def receiveLimit : Nat := 4096

def append (r : RecordReader) (bs : Bytes) : RecordReader :=
  ⟨r.buffer ++ bs⟩

def clear (r : RecordReader) : RecordReader :=
  { r with buffer := [] }

/-- The first record and the reader without it, or nothing if it is not complete yet. A content type
that is not assigned and a length beyond the limit are errors, which leave the bytes in place. -/
def next? (r : RecordReader) : Except Error (Option (Record × RecordReader)) :=
  match RecordHeader.parse r.buffer with
  | .error _ => .ok none
  | .ok (header, rest) =>
    match header.contentType with
    -- The type is judged before the length, and both before the fragment is there.
    | .unknown code => .error (.invalidContentType code)
    | _ =>
      if header.length > Record.maxCiphertext then
        .error (.tooLong header.length Record.maxCiphertext)
      else
        match Wire.Parser.take header.length rest with
        | .error _ => .ok none
        | .ok (fragment, rest) =>
          .ok (some (⟨header.contentType, header.version, fragment⟩, ⟨rest⟩))

/-- Receives until a record is complete, at most `polls` times. Whatever the result is, the bytes
that were not handed out stay in the reader. -/
def read {τ : Type} [Transport τ] (id : LinkId) :
    (polls : Nat) → RecordReader → τ → Except Error Record × RecordReader × τ
  -- No attempt is left, but the last one may have completed a record.
  | 0, r, t =>
    match r.next? with
    | .ok (some (record, r)) => (.ok record, r, t)
    | .ok none => (.error .timeout, r, t)
    | .error e => (.error e, r, t)
  | polls + 1, r, t =>
    match r.next? with
    | .ok (some (record, r)) => (.ok record, r, t)
    | .error e => (.error e, r, t)
    | .ok none =>
      match Transport.recv t id receiveLimit with
      | (.error e, t) => (.error (.transport e), r, t)
      | (.ok [], t) =>
        -- Nothing has arrived: either nothing will any more, or not yet.
        if Transport.isClosed t id then (.error .connectionClosed, r, t)
        else read id polls r (Transport.poll t)
      | (.ok bs, t) => read id polls (r.append bs) t

end RecordReader
end TlsClient
