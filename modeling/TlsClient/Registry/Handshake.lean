import TlsClient.Text

namespace TlsClient

inductive MessageType where
  | helloRequest
  | clientHello
  | serverHello
  | newSessionTicket
  | certificate
  | serverKeyExchange
  | certificateRequest
  | serverHelloDone
  | certificateVerify
  | clientKeyExchange
  | finished
  | unknown (code : UInt8)
deriving DecidableEq

namespace MessageType

def ofCode : UInt8 → MessageType
  | 0 => .helloRequest
  | 1 => .clientHello
  | 2 => .serverHello
  | 4 => .newSessionTicket
  | 11 => .certificate
  | 12 => .serverKeyExchange
  | 13 => .certificateRequest
  | 14 => .serverHelloDone
  | 15 => .certificateVerify
  | 16 => .clientKeyExchange
  | 20 => .finished
  | code => .unknown code

def code : MessageType → UInt8
  | .helloRequest => 0
  | .clientHello => 1
  | .serverHello => 2
  | .newSessionTicket => 4
  | .certificate => 11
  | .serverKeyExchange => 12
  | .certificateRequest => 13
  | .serverHelloDone => 14
  | .certificateVerify => 15
  | .clientKeyExchange => 16
  | .finished => 20
  | .unknown code => code

def text : MessageType → String
  | .helloRequest => "HelloRequest"
  | .clientHello => "ClientHello"
  | .serverHello => "ServerHello"
  | .newSessionTicket => "NewSessionTicket"
  | .certificate => "Certificate"
  | .serverKeyExchange => "ServerKeyExchange"
  | .certificateRequest => "CertificateRequest"
  | .serverHelloDone => "ServerHelloDone"
  | .certificateVerify => "CertificateVerify"
  | .clientKeyExchange => "ClientKeyExchange"
  | .finished => "Finished"
  | .unknown code => Text.tagged "Unknown" (toString code.toNat)

instance : Inhabited MessageType := ⟨.unknown 0⟩

@[simp] theorem code_ofCode (v : UInt8) : (ofCode v).code = v := by
  unfold ofCode
  split <;> rfl

end MessageType

inductive CipherSuite where
  | rsaAes128GcmSha256
  | rsaAes128CbcSha256
  | unknown (code : UInt16)
deriving DecidableEq

namespace CipherSuite

def ofCode : UInt16 → CipherSuite
  | 0x009C => .rsaAes128GcmSha256
  | 0x003C => .rsaAes128CbcSha256
  | code => .unknown code

def code : CipherSuite → UInt16
  | .rsaAes128GcmSha256 => 0x009C
  | .rsaAes128CbcSha256 => 0x003C
  | .unknown code => code

def text : CipherSuite → String
  | .rsaAes128GcmSha256 => "RSA_AES128_GCM_SHA256"
  | .rsaAes128CbcSha256 => "RSA_AES128_CBC_SHA256"
  | .unknown code => Text.tagged "Unknown" (toString code.toNat)

instance : Inhabited CipherSuite := ⟨.unknown 0⟩

@[simp] theorem code_ofCode (v : UInt16) : (ofCode v).code = v := by
  unfold ofCode
  split <;> rfl

def supported : CipherSuite → Bool
  | .unknown _ => false
  | _ => true

def aead : CipherSuite → Bool
  | .rsaAes128GcmSha256 => true
  | _ => false

/-- The length of the key block. CBC takes two MAC keys, two keys and two initial vectors; GCM takes
two keys and two 4-byte implicit initial vectors. -/
def keyBlockLength : CipherSuite → Nat
  | .rsaAes128GcmSha256 => 2 * 16 + 2 * 4
  | .rsaAes128CbcSha256 => 2 * 32 + 2 * 16 + 2 * 16
  | .unknown _ => 0

def verifyDataLength (_ : CipherSuite) : Nat := 12

def all : List CipherSuite := [.rsaAes128GcmSha256, .rsaAes128CbcSha256]

end CipherSuite

inductive CompressionMethod where
  | null
  | deflate
  | unknown (code : UInt8)
deriving DecidableEq

namespace CompressionMethod

def ofCode : UInt8 → CompressionMethod
  | 0 => .null
  | 1 => .deflate
  | code => .unknown code

def code : CompressionMethod → UInt8
  | .null => 0
  | .deflate => 1
  | .unknown code => code

def text : CompressionMethod → String
  | .null => "Null"
  | .deflate => "Deflate"
  | .unknown code => Text.tagged "Unknown" (toString code.toNat)

instance : Inhabited CompressionMethod := ⟨.unknown 0⟩

@[simp] theorem code_ofCode (v : UInt8) : (ofCode v).code = v := by
  unfold ofCode
  split <;> rfl

end CompressionMethod

inductive ExtensionType where
  | serverName
  | signatureAlgorithms
  | encryptThenMac
  | extendedMasterSecret
  | sessionTicket
  | renegotiationInfo
  | unknown (code : UInt16)
deriving DecidableEq

namespace ExtensionType

def ofCode : UInt16 → ExtensionType
  | 0x0000 => .serverName
  | 0x000D => .signatureAlgorithms
  | 0x0016 => .encryptThenMac
  | 0x0017 => .extendedMasterSecret
  | 0x0023 => .sessionTicket
  | 0xFF01 => .renegotiationInfo
  | code => .unknown code

def code : ExtensionType → UInt16
  | .serverName => 0x0000
  | .signatureAlgorithms => 0x000D
  | .encryptThenMac => 0x0016
  | .extendedMasterSecret => 0x0017
  | .sessionTicket => 0x0023
  | .renegotiationInfo => 0xFF01
  | .unknown code => code

def text : ExtensionType → String
  | .serverName => "ServerName"
  | .signatureAlgorithms => "SignatureAlgorithms"
  | .encryptThenMac => "EncryptThenMac"
  | .extendedMasterSecret => "ExtendedMasterSecret"
  | .sessionTicket => "SessionTicket"
  | .renegotiationInfo => "RenegotiationInfo"
  | .unknown code => Text.tagged "Unknown" (toString code.toNat)

instance : Inhabited ExtensionType := ⟨.unknown 0xFFFF⟩

@[simp] theorem code_ofCode (v : UInt16) : (ofCode v).code = v := by
  unfold ofCode
  split <;> rfl

end ExtensionType

end TlsClient
