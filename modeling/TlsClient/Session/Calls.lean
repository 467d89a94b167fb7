import TlsClient.Session.Application

namespace TlsClient

open Network

inductive Call where
  | send (data : Bytes)
  | recv (fuel room : Nat)
  | close
deriving DecidableEq

namespace Session

variable {τ ρ α : Type}

def after (a : Action τ ρ α) (s : Session τ ρ) : Session τ ρ :=
  match a s with
  | .ok _ s => s
  | .error _ s => s

variable [Transport τ] [RandomSource ρ]

def perform : Call → Action τ ρ Bytes
  | .send data => do
    let _ ← send data
    return []
  | .recv fuel room => recv fuel room
  | .close => do
    close
    return []

def handedOut (c : Call) (s : Session τ ρ) : Bytes :=
  match perform c s with
  | .ok bs _ => bs
  | .error _ _ => []

/-- The message that a call has for the server: data that passes the checks on the state and the
length, and the farewell of an established session. -/
def messageOf (s : Session τ ρ) : Call → List (ContentType × Bytes)
  | .send data =>
    if s.connection.state.isEstablished ∧ data.length ≤ Record.maxPlaintext then
      [(.applicationData, data)]
    else []
  -- Receiving has nothing to say.
  | .recv _ _ => []
  | .close =>
    if s.connection.state.isEstablished then [(.alert, Alert.closeNotify.toBytes)] else []

def afterCalls : List Call → Session τ ρ → Session τ ρ
  | [], s => s
  | c :: cs, s => afterCalls cs (after (perform c) s)

def delivered : List Call → Session τ ρ → Bytes
  | [], _ => []
  | c :: cs, s => handedOut c s ++ delivered cs (after (perform c) s)

def messages : List Call → Session τ ρ → List (ContentType × Bytes)
  | [], _ => []
  | c :: cs, s => s.messageOf c ++ messages cs (after (perform c) s)

/-- The sessions that a client can come to hold: any that is just started, and what any handshake or
call makes of one, whatever its result. -/
inductive Reachable : Session τ ρ → Prop
  | start (t : τ) (config : Config) (random : ρ) : Reachable (start t config random)
  | handshake {s : Session τ ρ} (h : Reachable s) (fuel : Nat) (now : Clock) (host : String)
    (peer : Endpoint) : Reachable (after (handshake fuel now host peer) s)
  | call {s : Session τ ρ} (h : Reachable s) (c : Call) : Reachable (after (perform c) s)

end Session
end TlsClient
