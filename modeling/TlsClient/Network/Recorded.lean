import TlsClient.Network.Transport

/-!
A transport with a record of what went over it: what was offered to be sent, whether or not it was
accepted, and what was received. Nothing else is changed, so the record is that of the transport.
-/

namespace TlsClient.Network

structure Recorded (τ : Type) where
  inner : τ
  /-- Every byte string that was offered, in order. -/
  sent : List Bytes
  /-- Every byte that arrived, in order. -/
  received : Bytes
deriving DecidableEq

namespace Recorded

variable {τ : Type} [Transport τ]

def start (t : τ) : Recorded τ := ⟨t, [], []⟩

def send (t : Recorded τ) (id : LinkId) (bs : Bytes) : Except TransportError Nat × Recorded τ :=
  let (r, inner) := Transport.send t.inner id bs
  -- What was offered is noted whatever the transport has made of it.
  (r, { t with inner, sent := t.sent ++ [bs] })

def recv (t : Recorded τ) (id : LinkId) (limit : Nat) :
    Except TransportError Bytes × Recorded τ :=
  match Transport.recv t.inner id limit with
  | (.ok bs, inner) => (.ok bs, { t with inner, received := t.received ++ bs })
  | (.error e, inner) => (.error e, { t with inner })

/-- The record takes no bytes of its own from a transport that keeps to the room it is given. -/
theorem length_recv_le (t : Recorded τ) (id : LinkId) (limit : Nat) (bs : Bytes)
    (h : (t.recv id limit).1 = .ok bs) : bs.length ≤ limit := by
  apply Transport.length_recv_le t.inner id limit
  simp only [recv] at h
  split at h <;> simp_all

instance : Transport (Recorded τ) where
  connect t peer :=
    let (r, inner) := Transport.connect t.inner peer
    (r, { t with inner })
  send := send
  recv := recv
  length_recv_le := length_recv_le
  isClosed t id := Transport.isClosed t.inner id
  close t id :=
    let (r, inner) := Transport.close t.inner id
    (r, { t with inner })
  poll t := { t with inner := Transport.poll t.inner }

end Recorded
end TlsClient.Network
