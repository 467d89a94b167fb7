import TlsClient.Message.Handshake
import TlsClient.Session.Records

namespace TlsClient.Session

open Network

variable {τ ρ : Type} [Transport τ] [RandomSource ρ]

def messageLimit : Nat := 65536

def checkAnnounced (buffered : Bytes) : Action τ ρ Unit :=
  match HandshakeHeader.parse buffered with
  -- Fewer than four bytes announce nothing.
  | .error _ => return ()
  | .ok (header, _) =>
    let length := HandshakeHeader.byteLength + header.length
    if length > messageLimit then fail (.tooLong length messageLimit) else return ()

/-- The next handshake message with its header, out of at most `fuel` further records. -/
def receiveMessage : (fuel : Nat) → Action τ ρ Bytes
  | 0 => throw .unfinished
  | fuel + 1 => do
    let buffered := (← current).handshakeBuffer
    match Handshake.completeLength buffered with
    | some length =>
      update ({ · with handshakeBuffer := buffered.drop length })
      return buffered.take length
    | none =>
      -- A message that is too long is refused before any more of it is received.
      checkAnnounced buffered
      let record ← receive
      match record.contentType with
      | .handshake =>
        update fun c => { c with handshakeBuffer := c.handshakeBuffer ++ record.fragment }
        receiveMessage fuel
      | .alert => heed record.fragment
      | other => fail (.unexpectedContentType other)

end TlsClient.Session
