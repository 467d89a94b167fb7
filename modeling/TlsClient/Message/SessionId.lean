import TlsClient.Text
import TlsClient.Wire.Parser

namespace TlsClient

def SessionId.maxLength : Nat := 32

structure SessionId where
  bytes : Bytes
  length_le : bytes.length ≤ SessionId.maxLength
deriving DecidableEq

structure SessionId.InvalidLength where
  length : Nat
deriving DecidableEq

def SessionId.InvalidLength.message (e : SessionId.InvalidLength) : String :=
  "Incorrect variable ID (SessionId) length: 0 <= " ++ toString e.length ++ " <= "
    ++ toString SessionId.maxLength

namespace SessionId

def empty : SessionId := ⟨[], by decide⟩

instance : Inhabited SessionId := ⟨empty⟩

def ofBytes (bs : Bytes) : Except InvalidLength SessionId :=
  if h : bs.length ≤ maxLength then .ok ⟨bs, h⟩ else .error ⟨bs.length⟩

def parse : Wire.Parser SessionId := do
  match ofBytes (← Wire.Parser.block 1) with
  | .ok id => return id
  | .error _ => Wire.Parser.fatal .lengthValue

def toBytes (id : SessionId) : Bytes :=
  UInt8.ofNat id.bytes.length :: id.bytes

def text (id : SessionId) : String :=
  Text.tagged "SessionId" (Text.list (id.bytes.map Text.hexByte))

end SessionId
end TlsClient
