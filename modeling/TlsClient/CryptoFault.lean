import TlsClient.Registry.Handshake

namespace TlsClient

inductive CryptoFault where
  | outputTooLong (requested limit : Nat)
  | notBlockAligned (length : Nat)
  | keyBlockTooShort (length : Nat) (suite : CipherSuite)
  | messageTooLong (length target : Nat)
  | sequenceExhausted
  | noCipherSuites
  | other (reason : String)
deriving DecidableEq

def CryptoFault.message : CryptoFault → String
  | .outputTooLong requested limit =>
    "PRF output of " ++ toString requested ++ " bytes exceeds " ++ toString limit
  | .notBlockAligned length =>
    "CBC input of " ++ toString length ++ " bytes is not block aligned"
  | .keyBlockTooShort length suite =>
    "key block of " ++ toString length ++ " bytes too short for " ++ suite.text
  | .messageTooLong length target =>
    "Message of " ++ toString length ++ " bytes too long for " ++ toString target
      ++ " byte RSA block"
  | .sequenceExhausted => "sequence number exhausted"
  | .noCipherSuites => "no cipher suites configured"
  | .other reason => reason

end TlsClient
