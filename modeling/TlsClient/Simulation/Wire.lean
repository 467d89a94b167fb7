import TlsClient.Simulation.Server

namespace TlsClient.Simulation

open Network

def faultAt (peer : Endpoint) : TransportError → TransportError
  | .connectFailed _ reason => .connectFailed peer reason
  | e => e

namespace Peer

def connect (p : Peer) (peer : Endpoint) : Except TransportError LinkId × Peer :=
  let p := p.see (.connect peer)
  match p.settings.connectFault with
  | some e => (.error (faultAt peer e), p)
  | none =>
    (.ok ⟨p.nextLink⟩,
      { p with
        nextLink := p.nextLink + 1
        queue := []
        dialogue := .fresh })

def send (p : Peer) (bs : Bytes) : Except TransportError Nat × Peer :=
  match p.settings.sendFault with
  -- The server has missed bytes, so it could not make sense of the next ones.
  | some e => (.error e, { p with dialogue.isDeaf := true })
  | none =>
    let accepted := min bs.length (p.settings.maxSend.getD bs.length)
    let p := if accepted < bs.length then { p with dialogue.isDeaf := true } else p
    let p :=
      if p.dialogue.isDeaf then p.see (.unheard accepted bs.length) else p.hearBytes bs
    (.ok accepted, p)

def recv (p : Peer) (limit : Nat) : Except TransportError Bytes × Peer :=
  let p := { p with recvs := p.recvs + 1 }
  match p.queue with
  | [] => (.ok [], p)
  | .idle :: queue => (.ok [], { p with queue })
  | .fault e :: queue => (.error e, { p with queue })
  | .data bs :: queue =>
    let n := min limit (p.settings.chunk.getD limit)
    let left := bs.drop n
    (.ok (bs.take n), { p with queue := if left = [] then queue else .data left :: queue })

theorem length_recv_le (p : Peer) (limit : Nat) (bs : Bytes) (h : (p.recv limit).1 = .ok bs) :
    bs.length ≤ limit := by
  simp only [recv] at h
  split at h
  · cases h
    exact Nat.zero_le _
  · cases h
    exact Nat.zero_le _
  · cases h
  · cases h
    simp only [List.length_take]
    omega

def close (p : Peer) (id : LinkId) : Except TransportError Unit × Peer :=
  let p := p.see (.close id)
  match p.settings.closeFault with
  | some e => (.error e, p)
  | none => (.ok (), p)

instance : Transport Peer where
  connect := connect
  send p _ bs := p.send bs
  recv p _ limit := p.recv limit
  length_recv_le p _ limit bs h := p.length_recv_le limit bs h
  isClosed p _ := p.settings.hungUp && p.queue.isEmpty
  close := close
  poll p := { p with polls := p.polls + 1 }

end Peer
end TlsClient.Simulation
