import TlsClient.Network.Address

namespace TlsClient.Network

structure LinkId where
  number : UInt32
deriving DecidableEq

namespace LinkId

def text (id : LinkId) : String :=
  "#" ++ toString id.number.toNat

def diagnostic (id : LinkId) : String :=
  Text.tagged "ConnectionId" (toString id.number.toNat)

end LinkId

inductive TransportError where
  | closed
  | connectFailed (peer : Endpoint) (reason : String)
  | unknownConnection (id : LinkId)
  | shortWrite (accepted length : Nat)
  | inputOutput (reason : String)
deriving DecidableEq

def TransportError.message : TransportError → String
  | .closed => "Connection closed"
  | .connectFailed peer reason => "Connect to " ++ peer.text ++ " failed: " ++ reason
  | .unknownConnection id => "Unknown connection " ++ id.text
  | .shortWrite accepted length =>
    "Short write: " ++ toString accepted ++ " of " ++ toString length ++ " bytes accepted"
  | .inputOutput reason => "I/O error: " ++ reason

/-- A reliable, ordered byte stream. -/
class Transport (τ : Type) where
  connect : τ → Endpoint → Except TransportError LinkId × τ
  /-- Offers bytes and tells how many of them were accepted. -/
  send : τ → LinkId → Bytes → Except TransportError Nat × τ
  /-- Bytes that have arrived, at most `limit` of them; none if nothing has arrived yet. -/
  recv : τ → LinkId → (limit : Nat) → Except TransportError Bytes × τ
  length_recv_le : ∀ (t : τ) (id : LinkId) (limit : Nat) (bs : Bytes),
    (recv t id limit).1 = .ok bs → bs.length ≤ limit
  /-- Whether the peer has closed its side. -/
  isClosed : τ → LinkId → Bool
  close : τ → LinkId → Except TransportError Unit × τ
  /-- Drives the network once. Called between attempts to receive. -/
  poll : τ → τ

end TlsClient.Network
