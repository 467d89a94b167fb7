namespace TlsClient

inductive State where
  | init
  | clientHelloSent
  | serverHelloReceived
  | certificateReceived
  | serverHelloDoneReceived
  | clientKeyExchangeSent
  | changeCipherSpecSent
  | finishedSent
  | established
  | error
deriving DecidableEq

inductive Event where
  | sendClientHello
  | serverHello
  | certificate
  | serverHelloDone
  | sendClientKeyExchange
  | sendChangeCipherSpec
  | sendFinished
  | serverFinished
  | fail
  | close
deriving DecidableEq

def State.text : State → String
  | .init => "Init"
  | .clientHelloSent => "ClientHelloSent"
  | .serverHelloReceived => "ServerHelloReceived"
  | .certificateReceived => "CertificateReceived"
  | .serverHelloDoneReceived => "ServerHelloDoneReceived"
  | .clientKeyExchangeSent => "ClientKeyExchangeSent"
  | .changeCipherSpecSent => "ChangeCipherSpecSent"
  | .finishedSent => "FinishedSent"
  | .established => "Established"
  | .error => "Error"

def Event.text : Event → String
  | .sendClientHello => "SendClientHello"
  | .serverHello => "ServerHello"
  | .certificate => "Certificate"
  | .serverHelloDone => "ServerHelloDone"
  | .sendClientKeyExchange => "SendClientKeyExchange"
  | .sendChangeCipherSpec => "SendChangeCipherSpec"
  | .sendFinished => "SendFinished"
  | .serverFinished => "ServerFinished"
  | .fail => "Fail"
  | .close => "Close"

namespace State

instance : Inhabited State := ⟨.init⟩

def all : List State :=
  [.init, .clientHelloSent, .serverHelloReceived, .certificateReceived, .serverHelloDoneReceived,
    .clientKeyExchangeSent, .changeCipherSpecSent, .finishedSent, .established, .error]

/-- The state after an event, if the event may happen. -/
def next? : State → Event → Option State
  -- A failure and the end of a connection may come at any time.
  | _, .fail => some .error
  | _, .close => some .init
  | .init, .sendClientHello => some .clientHelloSent
  | .clientHelloSent, .serverHello => some .serverHelloReceived
  | .serverHelloReceived, .certificate => some .certificateReceived
  | .certificateReceived, .serverHelloDone => some .serverHelloDoneReceived
  | .serverHelloDoneReceived, .sendClientKeyExchange => some .clientKeyExchangeSent
  | .clientKeyExchangeSent, .sendChangeCipherSpec => some .changeCipherSpecSent
  | .changeCipherSpecSent, .sendFinished => some .finishedSent
  | .finishedSent, .serverFinished => some .established
  | _, _ => none

def isHandshaking : State → Bool
  | .init | .established | .error => false
  | _ => true

def isEstablished : State → Bool
  | .established => true
  | _ => false

end State

def Event.all : List Event :=
  [.sendClientHello, .serverHello, .certificate, .serverHelloDone, .sendClientKeyExchange,
    .sendChangeCipherSpec, .sendFinished, .serverFinished, .fail, .close]

end TlsClient
