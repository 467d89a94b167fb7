import TlsClient.Bytes

/-!
The universal hash of GCM. It computes in the field of 2^128 elements: a 128-bit vector is a polynomial
with the coefficient of `t^0` in its most significant bit, and products are reduced by
`t^128 + t^7 + t^2 + t + 1`. The additional data and the ciphertext, each cut into blocks, and a block
with both lengths are the coefficients of a polynomial that is evaluated at the hash key.
-/

namespace TlsClient.Gcm

abbrev Element := BitVec 128

def reduction : Element := 0xe1#128 <<< 120

def timesT (v : Element) : Element :=
  -- The lowest bit is the coefficient of `t^127`, so the next power is to its right.
  if v.getLsbD 0 then (v >>> 1) ^^^ reduction else v >>> 1

/-- Adds to `z` the products of `v`, `t v`, `t^2 v` and so on for the set bits among the `n` lowest
bits of `x`, taken from the most significant one. -/
def mulBits (x : Element) : (n : Nat) → (z v : Element) → Element
  | 0, z, _ => z
  | n + 1, z, v => mulBits x n (if x.getLsbD n then z ^^^ v else z) (timesT v)

def mul (x y : Element) : Element :=
  mulBits x 128 0 y

namespace Element

def ofBytes (bs : Bytes) : Element :=
  -- The missing bytes are those of the highest powers.
  BitVec.ofNat 128 (bs.toNat <<< (8 * (16 - bs.length)))

def toBytes (x : Element) : Bytes :=
  Bytes.ofNat 16 x.toNat

end Element

def elements (bs : Bytes) : List Element :=
  (Bytes.chunks 16 bs).map Element.ofBytes

def lengthElement (aad ciphertext : Bytes) : Element :=
  .ofBytes (Bytes.ofNat 8 (8 * aad.length) ++ Bytes.ofNat 8 (8 * ciphertext.length))

def hashInput (aad ciphertext : Bytes) : List Element :=
  -- The two parts are padded apart, so that the lengths tell where one ends.
  elements aad ++ elements ciphertext ++ [lengthElement aad ciphertext]

def hash (h : Element) (aad ciphertext : Bytes) : Element :=
  (hashInput aad ciphertext).foldl (fun y x => mul (y ^^^ x) h) 0

end TlsClient.Gcm
