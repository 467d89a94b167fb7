import TlsClient.Error
import TlsClient.Natural.Modular
import TlsClient.Natural.Octets

namespace TlsClient

structure PublicKey where
  modulus : Natural
  exponent : Natural
  exponent_ne_zero : exponent.isZero = false
  exponent_less : exponent.less modulus = true
deriving DecidableEq

namespace PublicKey

def ofBytes (modulus exponent : Bytes) : Except Error PublicKey := do
  let n ← (Natural.ofBytes modulus).mapError .arithmetic
  let e ← (Natural.ofBytes exponent).mapError .arithmetic
  if n.isZero then .error (.certificate .zeroModulus) else
    if h : e.isZero = false ∧ e.less n = true then .ok ⟨n, e, h.1, h.2⟩
    else .error (.certificate (.exponentOutOfRange e.bitLength))

def bits (key : PublicKey) : Nat :=
  key.modulus.bitLength

def byteLength (key : PublicKey) : Nat :=
  (key.bits + 7) / 8

def raise (key : PublicKey) (bs : Bytes) : Except ArithmeticError Bytes := do
  let x ← Natural.ofBytes bs
  let y ← x.modPow key.exponent key.modulus
  y.toBytes key.byteLength

def text (key : PublicKey) : String :=
  Text.record "RsaPublicKey" [("bits", toString key.bits), ("e", key.exponent.text)]

end PublicKey
end TlsClient
