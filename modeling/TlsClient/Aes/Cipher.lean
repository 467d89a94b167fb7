import TlsClient.Aes.Block
import TlsClient.CryptoFault

namespace TlsClient.Aes

structure RoundKeys where
  whitening : Block
  rounds : List Block
deriving DecidableEq

def roundConstants : List UInt8 :=
  [0x01, 0x02, 0x04, 0x08, 0x10, 0x20, 0x40, 0x80, 0x1b, 0x36]

def nextRoundKey (constant : UInt8) (k : Block) : Block :=
  -- Each column is added to the new one before it; the first one to the old last one, substituted.
  let c0 := k.c0.xor ((k.c3.rotate.map sub).xor ⟨constant, 0, 0, 0⟩)
  let c1 := k.c1.xor c0
  let c2 := k.c2.xor c1
  let c3 := k.c3.xor c2
  ⟨c0, c1, c2, c3⟩

def roundKeysAfter : Block → List UInt8 → List Block
  | _, [] => []
  | k, constant :: constants =>
    let k := nextRoundKey constant k
    k :: roundKeysAfter k constants

namespace RoundKeys

def ofKey (key : Block) : RoundKeys where
  whitening := key
  rounds := roundKeysAfter key roundConstants

end RoundKeys

def encryptRounds : List Block → Block → Block
  | [], s => s
  -- Mixing here could be undone without the key, so it is left out.
  | [k], s => s.subBytes.shiftRows.xor k
  | k :: ks, s => encryptRounds ks (s.subBytes.shiftRows.mixColumns.xor k)

def decryptRounds : List Block → Block → Block
  | [], s => s
  | [k], s => (s.xor k).unshiftRows.unsubBytes
  -- The rounds are undone from the last to the first, each one backwards.
  | k :: ks, s => ((decryptRounds ks s).xor k).unmixColumns.unshiftRows.unsubBytes

namespace RoundKeys

def encrypt (keys : RoundKeys) (s : Block) : Block :=
  encryptRounds keys.rounds (s.xor keys.whitening)

def decrypt (keys : RoundKeys) (s : Block) : Block :=
  (decryptRounds keys.rounds s).xor keys.whitening

def chainEncrypt (keys : RoundKeys) : (previous : Block) → List Block → List Block
  | _, [] => []
  | previous, p :: ps =>
    let c := keys.encrypt (previous.xor p)
    c :: chainEncrypt keys c ps

def chainDecrypt (keys : RoundKeys) : (previous : Block) → List Block → List Block
  | _, [] => []
  -- The next block was added to the ciphertext, not to what it decrypts to.
  | previous, c :: cs => (keys.decrypt c).xor previous :: chainDecrypt keys c cs

def onWholeBlocks (f : List Block → List Block) (buffer : Bytes) :
    Except CryptoFault Unit × Bytes :=
  if buffer.length % blockLength ≠ 0 then (.error (.notBlockAligned buffer.length), buffer)
  else (.ok (), Block.join (f (Block.split buffer)))

def cbcEncrypt (keys : RoundKeys) (iv : Block) (buffer : Bytes) :
    Except CryptoFault Unit × Bytes :=
  onWholeBlocks (keys.chainEncrypt iv) buffer

def cbcDecrypt (keys : RoundKeys) (iv : Block) (buffer : Bytes) :
    Except CryptoFault Unit × Bytes :=
  onWholeBlocks (keys.chainDecrypt iv) buffer

end RoundKeys
end TlsClient.Aes
