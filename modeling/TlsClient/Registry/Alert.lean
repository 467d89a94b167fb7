import TlsClient.Text

namespace TlsClient

inductive AlertLevel where
  | warning
  | fatal
  | unknown (code : UInt8)
deriving DecidableEq

namespace AlertLevel

def ofCode : UInt8 → AlertLevel
  | 1 => .warning
  | 2 => .fatal
  | code => .unknown code

def code : AlertLevel → UInt8
  | .warning => 1
  | .fatal => 2
  | .unknown code => code

def text : AlertLevel → String
  | .warning => "Warning"
  | .fatal => "Fatal"
  | .unknown code => Text.tagged "Unknown" (toString code.toNat)

instance : Inhabited AlertLevel := ⟨.unknown 0⟩

@[simp] theorem code_ofCode (v : UInt8) : (ofCode v).code = v := by
  unfold ofCode
  split <;> rfl

end AlertLevel

inductive AlertDescription where
  | closeNotify
  | unexpectedMessage
  | badRecordMac
  | recordOverflow
  | handshakeFailure
  | badCertificate
  | unsupportedCertificate
  | certificateRevoked
  | certificateExpired
  | certificateUnknown
  | illegalParameter
  | unknownCa
  | accessDenied
  | decodeError
  | decryptError
  | protocolVersion
  | insufficientSecurity
  | internalError
  | userCanceled
  | noRenegotiation
  | unsupportedExtension
  | unknown (code : UInt8)
deriving DecidableEq

namespace AlertDescription

def ofCode : UInt8 → AlertDescription
  | 0 => .closeNotify
  | 10 => .unexpectedMessage
  | 20 => .badRecordMac
  | 22 => .recordOverflow
  | 40 => .handshakeFailure
  | 42 => .badCertificate
  | 43 => .unsupportedCertificate
  | 44 => .certificateRevoked
  | 45 => .certificateExpired
  | 46 => .certificateUnknown
  | 47 => .illegalParameter
  | 48 => .unknownCa
  | 49 => .accessDenied
  | 50 => .decodeError
  | 51 => .decryptError
  | 70 => .protocolVersion
  | 71 => .insufficientSecurity
  | 80 => .internalError
  | 90 => .userCanceled
  | 100 => .noRenegotiation
  | 110 => .unsupportedExtension
  | code => .unknown code

def code : AlertDescription → UInt8
  | .closeNotify => 0
  | .unexpectedMessage => 10
  | .badRecordMac => 20
  | .recordOverflow => 22
  | .handshakeFailure => 40
  | .badCertificate => 42
  | .unsupportedCertificate => 43
  | .certificateRevoked => 44
  | .certificateExpired => 45
  | .certificateUnknown => 46
  | .illegalParameter => 47
  | .unknownCa => 48
  | .accessDenied => 49
  | .decodeError => 50
  | .decryptError => 51
  | .protocolVersion => 70
  | .insufficientSecurity => 71
  | .internalError => 80
  | .userCanceled => 90
  | .noRenegotiation => 100
  | .unsupportedExtension => 110
  | .unknown code => code

def text : AlertDescription → String
  | .closeNotify => "CloseNotify"
  | .unexpectedMessage => "UnexpectedMessage"
  | .badRecordMac => "BadRecordMac"
  | .recordOverflow => "RecordOverflow"
  | .handshakeFailure => "HandshakeFailure"
  | .badCertificate => "BadCertificate"
  | .unsupportedCertificate => "UnsupportedCertificate"
  | .certificateRevoked => "CertificateRevoked"
  | .certificateExpired => "CertificateExpired"
  | .certificateUnknown => "CertificateUnknown"
  | .illegalParameter => "IllegalParameter"
  | .unknownCa => "UnknownCa"
  | .accessDenied => "AccessDenied"
  | .decodeError => "DecodeError"
  | .decryptError => "DecryptError"
  | .protocolVersion => "ProtocolVersion"
  | .insufficientSecurity => "InsufficientSecurity"
  | .internalError => "InternalError"
  | .userCanceled => "UserCanceled"
  | .noRenegotiation => "NoRenegotiation"
  | .unsupportedExtension => "UnsupportedExtension"
  | .unknown code => Text.tagged "Unknown" (toString code.toNat)

instance : Inhabited AlertDescription := ⟨.unknown 0⟩

@[simp] theorem code_ofCode (v : UInt8) : (ofCode v).code = v := by
  unfold ofCode
  split <;> rfl

end AlertDescription

end TlsClient
