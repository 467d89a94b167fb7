import TlsClient.Registry.Alert
import TlsClient.Wire.Parser

namespace TlsClient

structure Alert where
  level : AlertLevel
  description : AlertDescription
deriving DecidableEq

namespace Alert

def closeNotify : Alert := ⟨.warning, .closeNotify⟩

def isCloseNotify (a : Alert) : Bool :=
  a.description = .closeNotify

def parse : Wire.Parser Alert := do
  let level ← Wire.Parser.byte
  let description ← Wire.Parser.byte
  return ⟨.ofCode level, .ofCode description⟩

def toBytes (a : Alert) : Bytes :=
  [a.level.code, a.description.code]

def text (a : Alert) : String :=
  Text.record "Alert" [("level", a.level.text), ("description", a.description.text)]

end Alert
end TlsClient
