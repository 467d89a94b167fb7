import TlsClient.Text

namespace TlsClient

inductive ContentType where
  | changeCipherSpec
  | alert
  | handshake
  | applicationData
  | unknown (code : UInt8)
deriving DecidableEq

namespace ContentType

def ofCode : UInt8 → ContentType
  | 20 => .changeCipherSpec
  | 21 => .alert
  | 22 => .handshake
  | 23 => .applicationData
  | code => .unknown code

def code : ContentType → UInt8
  | .changeCipherSpec => 20
  | .alert => 21
  | .handshake => 22
  | .applicationData => 23
  | .unknown code => code

def text : ContentType → String
  | .changeCipherSpec => "ChangeCipherSpec"
  | .alert => "Alert"
  | .handshake => "Handshake"
  | .applicationData => "ApplicationData"
  | .unknown code => Text.tagged "Unknown" (toString code.toNat)

instance : Inhabited ContentType := ⟨.unknown 0⟩

@[simp] theorem code_ofCode (v : UInt8) : (ofCode v).code = v := by
  unfold ofCode
  split <;> rfl

end ContentType

inductive ProtocolVersion where
  | tls10
  | tls11
  | tls12
  | unknown (code : UInt16)
deriving DecidableEq

namespace ProtocolVersion

def ofCode : UInt16 → ProtocolVersion
  | 0x0301 => .tls10
  | 0x0302 => .tls11
  | 0x0303 => .tls12
  | code => .unknown code

def code : ProtocolVersion → UInt16
  | .tls10 => 0x0301
  | .tls11 => 0x0302
  | .tls12 => 0x0303
  | .unknown code => code

def text : ProtocolVersion → String
  | .tls10 => "TLS1_0"
  | .tls11 => "TLS1_1"
  | .tls12 => "TLS1_2"
  | .unknown code => Text.tagged "Unknown" (toString code.toNat)

instance : Inhabited ProtocolVersion := ⟨.unknown 0⟩

@[simp] theorem code_ofCode (v : UInt16) : (ofCode v).code = v := by
  unfold ofCode
  split <;> rfl

end ProtocolVersion

end TlsClient
