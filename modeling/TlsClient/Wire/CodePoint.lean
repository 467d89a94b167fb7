import TlsClient.Registry.Handshake
import TlsClient.Registry.Record
import TlsClient.Registry.Signature
import TlsClient.Wire.Parser

namespace TlsClient

open Wire.Parser

def ContentType.parse : Wire.Parser ContentType := ofCode <$> byte

def ProtocolVersion.parse : Wire.Parser ProtocolVersion := ofCode <$> word16

def ProtocolVersion.toBytes (v : ProtocolVersion) : Bytes := Bytes.ofNat 2 v.code.toNat

def MessageType.parse : Wire.Parser MessageType := ofCode <$> byte

def CipherSuite.parse : Wire.Parser CipherSuite := ofCode <$> word16

def CipherSuite.toBytes (s : CipherSuite) : Bytes := Bytes.ofNat 2 s.code.toNat

def CompressionMethod.parse : Wire.Parser CompressionMethod := ofCode <$> byte

def ExtensionType.parse : Wire.Parser ExtensionType := ofCode <$> word16

def ExtensionType.toBytes (t : ExtensionType) : Bytes := Bytes.ofNat 2 t.code.toNat

def SignatureScheme.parse : Wire.Parser SignatureScheme := ofCode <$> word16

def SignatureScheme.toBytes (s : SignatureScheme) : Bytes := Bytes.ofNat 2 s.code.toNat

end TlsClient
