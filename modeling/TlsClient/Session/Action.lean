import TlsClient.Session.Config
import TlsClient.Session.Connection

/-!
A session and what runs on it. An `Action` reads and changes a session and gives a result or stops;
the session afterwards is there in both cases, because a failure in the middle leaves traces.
-/

namespace TlsClient

open Network

/-- A client's session over a transport, with its source of random numbers. -/
structure Session (τ ρ : Type) where
  transport : τ
  config : Config
  random : ρ
  lastAlert : Option Alert
  connection : Connection

namespace Session

variable {τ ρ α : Type}

def start (transport : τ) (config : Config) (random : ρ) : Session τ ρ where
  transport := transport
  config := config
  random := random
  lastAlert := none
  connection := .fresh

abbrev Action (τ ρ α : Type) := EStateM Stop (Session τ ρ) α

def fail (e : Error) : Action τ ρ α :=
  throw (.failed e)

def check : Except Error α → Action τ ρ α
  | .ok a => pure a
  | .error e => fail e

def current : Action τ ρ Connection := do
  return (← get).connection

def update (f : Connection → Connection) : Action τ ρ Unit :=
  modify fun s => { s with connection := f s.connection }

def draw (f : ρ → α × ρ) : Action τ ρ α := fun s =>
  match f s.random with
  | (a, r) => .ok a { s with random := r }

def operate (f : τ → Except TransportError α × τ) : Action τ ρ α := fun s =>
  match f s.transport with
  | (.ok a, t) => .ok a { s with transport := t }
  -- A transport that fails has changed all the same.
  | (.error e, t) => .error (.failed (.transport e)) { s with transport := t }

def attempt (a : Action τ ρ α) : Action τ ρ (Except Stop α) := fun s =>
  match a s with
  | .ok a s => .ok (.ok a) s
  | .error e s => .ok (.error e) s

def link : Action τ ρ LinkId := do
  let c ← current
  match c.link with
  | some id => return id
  | none => fail (.invalidState c.state)

def advance (event : Event) : Action τ ρ Unit := do
  let c ← current
  let state ← check (c.state.next event)
  update ({ · with state })

def nextSequence (n : UInt64) : Except Error UInt64 :=
  if n.toNat + 1 < UInt64.size then .ok (n + 1) else .error (.crypto .sequenceExhausted)

end Session
end TlsClient
