import TlsClient.Network.Transport

/-!
A transport that is watched: every operation that was made on it, in order, with what it gave. A
`Recorded` transport tells which bytes went over it, a watched one also how often it was asked.
-/

namespace TlsClient.Network

inductive Occurrence where
  | connects (peer : Endpoint)
  | sends (id : LinkId) (bs : Bytes)
  | receives (id : LinkId) (limit : Nat) (answer : Except TransportError Bytes)
  | closes (id : LinkId)
  | polls

namespace Occurrence

def isReceive : Occurrence → Bool
  | receives _ _ _ => true
  | _ => false

def isPoll : Occurrence → Bool
  | polls => true
  | _ => false

def bytes : Occurrence → Bytes
  | receives _ _ (.ok bs) => bs
  | _ => []

end Occurrence

structure Watched (τ : Type) where
  inner : τ
  log : List Occurrence

namespace Watched

variable {τ : Type} [Transport τ]

def noting (t : Watched τ) (x : Occurrence) (inner : τ) : Watched τ :=
  ⟨inner, t.log ++ [x]⟩

instance : Transport (Watched τ) where
  connect t peer :=
    let (answer, inner) := Transport.connect t.inner peer
    (answer, t.noting (.connects peer) inner)
  send t id bs :=
    let (answer, inner) := Transport.send t.inner id bs
    (answer, t.noting (.sends id bs) inner)
  recv t id limit :=
    let (answer, inner) := Transport.recv t.inner id limit
    (answer, t.noting (.receives id limit answer) inner)
  length_recv_le t id limit bs h := Transport.length_recv_le t.inner id limit bs h
  isClosed t id := Transport.isClosed t.inner id
  close t id :=
    let (answer, inner) := Transport.close t.inner id
    (answer, t.noting (.closes id) inner)
  poll t := t.noting .polls (Transport.poll t.inner)

end Watched
end TlsClient.Network
