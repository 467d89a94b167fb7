import TlsClient.CryptoFault
import TlsClient.Der.Tag
import TlsClient.Message.Alert
import TlsClient.Natural.Basic
import TlsClient.Network.Transport
import TlsClient.Registry.Record
import TlsClient.Session.State

namespace TlsClient

inductive CertificateFault where
  | trailingBytes (count : Nat)
  | unexpectedTag (expected found : Der.Tag)
  | emptyInteger
  | negativeInteger
  | unusedBits
  | empty
  | noRsaKey
  | keyInfoShape
  | keyShape
  | zeroModulus
  | exponentOutOfRange (bits : Nat)
  | missing
  | noServerKey
  | other (reason : String)
deriving DecidableEq

def CertificateFault.message : CertificateFault → String
  | .trailingBytes count => toString count ++ " trailing bytes after DER value"
  | .unexpectedTag expected found => "expected " ++ expected.text ++ ", found " ++ found.text
  | .emptyInteger => "empty INTEGER"
  | .negativeInteger => "negative INTEGER"
  | .unusedBits => "BIT STRING with unused bits"
  | .empty => "empty certificate"
  | .noRsaKey => "no RSA subject public key"
  | .keyInfoShape => "SubjectPublicKeyInfo is not two elements"
  | .keyShape => "RSAPublicKey is not two INTEGERs"
  | .zeroModulus => "RSA modulus is zero"
  | .exponentOutOfRange bits => "RSA exponent out of range (" ++ toString bits ++ " bits)"
  | .missing => "server sent no certificate"
  | .noServerKey => "no server key"
  | .other reason => reason

inductive MessageFault where
  | compression (method : CompressionMethod)
  | malformedChangeCipherSpec
  | changeCipherSpecInsideMessage
  | other (reason : String)
deriving DecidableEq

def MessageFault.message : MessageFault → String
  | .compression method => "compression method " ++ method.text
  | .malformedChangeCipherSpec => "malformed ChangeCipherSpec"
  | .changeCipherSpecInsideMessage => "ChangeCipherSpec inside a handshake message"
  | .other reason => reason

inductive Error where
  | tooShort
  | parse (code : Wire.Code)
  | parseIncomplete
  | invalidContentType (code : UInt8)
  | unexpectedContentType (found : ContentType)
  | unexpectedHandshake (found : MessageType) (state : State)
  | unexpectedMessage (fault : MessageFault)
  | unsupportedVersion (found : ProtocolVersion)
  | unsupportedCipherSuite (code : UInt16)
  | invalidTransition (state : State) (event : Event)
  | invalidState (state : State)
  | certificate (fault : CertificateFault)
  | alertReceived (alert : Alert)
  | crypto (fault : CryptoFault)
  | badRecordMac
  | finishedMismatch
  | arithmetic (fault : ArithmeticError)
  | tooLong (length limit : Nat)
  | transport (fault : Network.TransportError)
  | connectionClosed
  | timeout
deriving DecidableEq

inductive ErrorKind where
  | protocol
  | crypto
  | timeout
  | transport
  | capacity
deriving DecidableEq

def ErrorKind.text : ErrorKind → String
  | .protocol => "Protocol"
  | .crypto => "Crypto"
  | .timeout => "Timeout"
  | .transport => "Transport"
  | .capacity => "Capacity"

namespace Error

def message : Error → String
  | .tooShort => "Too short"
  | .parse code => "Parse error: " ++ code.text
  | .parseIncomplete => "Parse incomplete"
  | .invalidContentType code => "Invalid content type " ++ toString code.toNat
  | .unexpectedContentType found => "Unexpected content type " ++ found.text
  | .unexpectedHandshake found state =>
    "Unexpected handshake message " ++ found.text ++ " in state " ++ state.text
  | .unexpectedMessage fault => "Unexpected message: " ++ fault.message
  | .unsupportedVersion found => "Unsupported TLS version " ++ found.text
  | .unsupportedCipherSuite code =>
    "Server selected cipher suite not offered: " ++ Text.hexCode code
  | .invalidTransition state event =>
    "Invalid transition " ++ event.text ++ " in state " ++ state.text
  | .invalidState state => "Operation not allowed in state " ++ state.text
  | .certificate fault => "Certificate error: " ++ fault.message
  | .alertReceived alert => "Alert received: " ++ alert.text
  | .crypto fault => "Crypto error: " ++ fault.message
  | .badRecordMac => "Authentication tag mismatch"
  | .finishedMismatch => "Finished verify_data mismatch"
  | .arithmetic fault => "Bignum error: " ++ fault.message
  | .tooLong length limit =>
    "Too big length field (> " ++ toString limit ++ ") " ++ toString length
  | .transport fault => "Transport error: " ++ fault.message
  | .connectionClosed => "Peer closed the connection"
  | .timeout => "Timeout waiting for peer"

def name : Error → String
  | .tooShort => "TooShort"
  | .parse _ => "ParseError"
  | .parseIncomplete => "ParseIncomplete"
  | .invalidContentType _ => "InvalidContentType"
  | .unexpectedContentType _ => "UnexpectedContentType"
  | .unexpectedHandshake _ _ => "UnexpectedHandshake"
  | .unexpectedMessage _ => "UnexpectedMessage"
  | .unsupportedVersion _ => "UnsupportedTlsVersion"
  | .unsupportedCipherSuite _ => "UnsupportedCipherSuite"
  | .invalidTransition _ _ => "InvalidTransition"
  | .invalidState _ => "InvalidState"
  | .certificate _ => "CertificateError"
  | .alertReceived _ => "AlertReceived"
  | .crypto _ => "CryptoError"
  | .badRecordMac => "BadRecordMac"
  | .finishedMismatch => "FinishedMismatch"
  | .arithmetic _ => "Bignum"
  | .tooLong _ _ => "TooBigLength"
  | .transport _ => "Transport"
  | .connectionClosed => "ConnectionClosed"
  | .timeout => "Timeout"

def kind : Error → ErrorKind
  | .crypto _ | .badRecordMac | .finishedMismatch => .crypto
  | .arithmetic (.capacityExceeded _) | .arithmetic (.bufferTooSmall _ _) => .capacity
  | .arithmetic _ => .crypto
  | .tooLong _ _ => .capacity
  | .transport _ => .transport
  | .timeout => .timeout
  | _ => .protocol

def ofFailure : Wire.Failure → Error
  | .recoverable .eof => .tooShort
  | .recoverable code => .parse code
  | .fatal code => .parse code
  | .incomplete => .parseIncomplete

end Error

/-- Why an operation that draws or waits gave no result: it failed, or it used up its fuel. -/
inductive Stop where
  | failed (error : Error)
  | unfinished
deriving DecidableEq

def Wire.Parser.parse {α : Type} (p : Wire.Parser α) (bs : Bytes) : Except Error α :=
  match p bs with
  | .ok (a, _) => .ok a
  | .error e => .error (.ofFailure e)

def State.next (s : State) (e : Event) : Except Error State :=
  match s.next? e with
  | some s => .ok s
  | none => .error (.invalidTransition s e)

end TlsClient
