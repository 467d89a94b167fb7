import TlsClient.Session.KeyAgreement

namespace TlsClient.Session

open Network

variable {τ ρ α : Type} [Transport τ] [RandomSource ρ]

def orFail (a : Action τ ρ α) : Action τ ρ α := fun s =>
  match a s with
  | .ok a s => .ok a s
  | .error e s => .error e { s with connection := s.connection.failed }

def negotiate (fuel : Nat) (now : Clock) (host : String) (peer : Endpoint) : Action τ ρ Unit := do
  let id ← operate (Transport.connect · peer)
  -- From here on closing the session closes the transport's connection.
  update ({ · with link := some id })
  sendHello now host
  receiveFlight fuel
  let preMaster ← sendKeyExchange fuel
  deriveKeys preMaster
  sendChangeCipherSpec
  sendFinished
  receiveEnd fuel

/-- Opens a connection to a server, which is told the name of the host unless that is empty, and
goes through the handshake. Loops that the server or the random source can prolong are bounded by
`fuel`. -/
def handshake (fuel : Nat) (now : Clock) (host : String) (peer : Endpoint) :
    Action τ ρ Unit := do
  let state := (← current).state
  if state = .init then orFail (negotiate fuel now host peer) else fail (.invalidState state)

def connect (transport : τ) (config : Config) (random : ρ) (fuel : Nat) (now : Clock)
    (host : String) (peer : Endpoint) : Except Stop (Session τ ρ) :=
  match handshake fuel now host peer (start transport config random) with
  | .ok () s => .ok s
  | .error e _ => .error e

end TlsClient.Session
