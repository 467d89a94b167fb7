import TlsClient.Aes.Cipher
import TlsClient.Error
import TlsClient.Gcm.Hash

namespace TlsClient

structure Gcm where
  keys : Aes.RoundKeys
  hashKey : Gcm.Element
deriving DecidableEq

namespace Gcm

def nonceLength : Nat := 12

def tagLength : Nat := 16

def ofKey (key : Aes.Block) : Gcm :=
  let keys := Aes.RoundKeys.ofKey key
  -- The block of no bytes is the zero block.
  ⟨keys, .ofBytes (keys.encrypt (.ofBytes [])).toBytes⟩

def counterBlock (nonce : Octets nonceLength) (counter : UInt32) : Aes.Block :=
  .ofBytes (nonce.toList ++ Bytes.ofNat 4 counter.toNat)

def keystream (g : Gcm) (nonce : Octets nonceLength) (counter : UInt32) : Bytes :=
  (g.keys.encrypt (counterBlock nonce counter)).toBytes

def addKeystream (g : Gcm) (nonce : Octets nonceLength) : (counter : UInt32) → List Bytes → Bytes
  | _, [] => []
  | counter, piece :: pieces =>
    Bytes.xor piece (g.keystream nonce counter) ++ addKeystream g nonce (counter + 1) pieces

/-- Adds the keystream to a byte string. The counter starts at 2; 1 is for the tag. -/
def crypt (g : Gcm) (nonce : Octets nonceLength) (data : Bytes) : Bytes :=
  g.addKeystream nonce 2 (Bytes.chunks 16 data)

def tag (g : Gcm) (nonce : Octets nonceLength) (aad ciphertext : Bytes) : Bytes :=
  Bytes.xor (hash g.hashKey aad ciphertext).toBytes (g.keystream nonce 1)

def encrypt (g : Gcm) (nonce : Octets nonceLength) (aad plaintext : Bytes) : Bytes × Bytes :=
  let ciphertext := g.crypt nonce plaintext
  (ciphertext, g.tag nonce aad ciphertext)

/-- Decrypts a buffer in place if the tag is right. The second part is the buffer afterwards; it is
left alone if the tag is wrong. -/
def decrypt (g : Gcm) (nonce : Octets nonceLength) (aad buffer tag : Bytes) :
    Except Error Unit × Bytes :=
  -- The tag covers the ciphertext, so nothing is decrypted before it is found right.
  if Bytes.agree (g.tag nonce aad buffer) tag then (.ok (), g.crypt nonce buffer)
  else (.error .badRecordMac, buffer)

end Gcm
end TlsClient
