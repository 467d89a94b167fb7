import TlsClient.Bytes

namespace TlsClient

structure PrivateKey where
  modulus : Nat
  exponent : Nat
deriving DecidableEq

namespace PrivateKey

def powMod (base exponent modulus : Nat) : Nat :=
  if exponent = 0 then 1 % modulus else
    let half := powMod (base * base % modulus) (exponent / 2) modulus
    if exponent % 2 = 1 then base * half % modulus else half
termination_by exponent
decreasing_by omega

def recover (key : PrivateKey) (ciphertext : Bytes) : Bytes :=
  Bytes.ofNat ciphertext.length (powMod ciphertext.toNat key.exponent key.modulus)

def paddingEnd (block : Bytes) : Option Nat :=
  (block.drop 2).findIdx? (· == 0) |>.map (· + 2)

def messageOf (block : Bytes) : Bytes :=
  match paddingEnd block with
  | some i => block.drop (i + 1)
  | none => []

def isPadded (block : Bytes) : Bool :=
  block.take 2 == [0, 2]

end PrivateKey
end TlsClient
