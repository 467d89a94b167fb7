import TlsClient.Aes.Block
import TlsClient.CryptoFault

namespace TlsClient

inductive Side where
  | client
  | server
deriving DecidableEq

structure WriteKeys where
  macKey : Bytes
  key : Aes.Block
  iv : Bytes
deriving DecidableEq

structure KeyMaterial where
  client : WriteKeys
  server : WriteKeys
deriving DecidableEq

def CipherSuite.macKeyLength (suite : CipherSuite) : Nat :=
  if suite.aead then 0 else 32

def CipherSuite.fixedIvLength (suite : CipherSuite) : Nat :=
  if suite.aead then 4 else 16

namespace KeyMaterial

def ofKeyBlock (suite : CipherSuite) (block : Bytes) : Except CryptoFault KeyMaterial :=
  if suite.supported = false ∨ block.length < suite.keyBlockLength then
    .error (.keyBlockTooShort block.length suite)
  else
    -- What is left of a block that is too long is not used.
    let (clientMac, rest) := block.splitAt suite.macKeyLength
    let (serverMac, rest) := rest.splitAt suite.macKeyLength
    let (clientKey, rest) := rest.splitAt Aes.blockLength
    let (serverKey, rest) := rest.splitAt Aes.blockLength
    let (clientIv, rest) := rest.splitAt suite.fixedIvLength
    let serverIv := rest.take suite.fixedIvLength
    .ok {
      client := ⟨clientMac, .ofBytes clientKey, clientIv⟩
      server := ⟨serverMac, .ofBytes serverKey, serverIv⟩ }

def writer (keys : KeyMaterial) : Side → WriteKeys
  | .client => keys.client
  | .server => keys.server

def text (_ : KeyMaterial) : String := "KeyMaterial"

end KeyMaterial
end TlsClient
