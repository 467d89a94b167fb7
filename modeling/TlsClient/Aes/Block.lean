import TlsClient.Aes.Substitution
import TlsClient.Bytes

namespace TlsClient.Aes

def double (a : UInt8) : UInt8 :=
  -- The bit that is shifted out decides whether the rest of the modulus is added.
  (a <<< 1) ^^^ ((a >>> 7) * 0x1b)

def mulBits : (n : Nat) → (a b : UInt8) → UInt8
  | 0, _, _ => 0
  | n + 1, a, b => (if b &&& 1 = 1 then a else 0) ^^^ mulBits n (double a) (b >>> 1)

def mul (a b : UInt8) : UInt8 :=
  mulBits 8 a b

structure Column where
  b0 : UInt8
  b1 : UInt8
  b2 : UInt8
  b3 : UInt8
deriving DecidableEq

namespace Column

def xor (x y : Column) : Column :=
  ⟨x.b0 ^^^ y.b0, x.b1 ^^^ y.b1, x.b2 ^^^ y.b2, x.b3 ^^^ y.b3⟩

def map (f : UInt8 → UInt8) (x : Column) : Column :=
  ⟨f x.b0, f x.b1, f x.b2, f x.b3⟩

def rotate (x : Column) : Column :=
  ⟨x.b1, x.b2, x.b3, x.b0⟩

def mix (x : Column) : Column where
  -- Three times a byte is its double and itself.
  b0 := double x.b0 ^^^ double x.b1 ^^^ x.b1 ^^^ x.b2 ^^^ x.b3
  b1 := x.b0 ^^^ double x.b1 ^^^ double x.b2 ^^^ x.b2 ^^^ x.b3
  b2 := x.b0 ^^^ x.b1 ^^^ double x.b2 ^^^ double x.b3 ^^^ x.b3
  b3 := double x.b0 ^^^ x.b0 ^^^ x.b1 ^^^ x.b2 ^^^ double x.b3

def unmix (x : Column) : Column where
  b0 := mul x.b0 14 ^^^ mul x.b1 11 ^^^ mul x.b2 13 ^^^ mul x.b3 9
  b1 := mul x.b0 9 ^^^ mul x.b1 14 ^^^ mul x.b2 11 ^^^ mul x.b3 13
  b2 := mul x.b0 13 ^^^ mul x.b1 9 ^^^ mul x.b2 14 ^^^ mul x.b3 11
  b3 := mul x.b0 11 ^^^ mul x.b1 13 ^^^ mul x.b2 9 ^^^ mul x.b3 14

def ofBytes (bs : Bytes) : Column :=
  ⟨bs.getD 0 0, bs.getD 1 0, bs.getD 2 0, bs.getD 3 0⟩

def toBytes (x : Column) : Bytes :=
  [x.b0, x.b1, x.b2, x.b3]

end Column

def blockLength : Nat := 16

structure Block where
  c0 : Column
  c1 : Column
  c2 : Column
  c3 : Column
deriving DecidableEq

namespace Block

def xor (s t : Block) : Block :=
  ⟨s.c0.xor t.c0, s.c1.xor t.c1, s.c2.xor t.c2, s.c3.xor t.c3⟩

def mapColumns (f : Column → Column) (s : Block) : Block :=
  ⟨f s.c0, f s.c1, f s.c2, f s.c3⟩

def subBytes (s : Block) : Block :=
  s.mapColumns (·.map sub)

def unsubBytes (s : Block) : Block :=
  s.mapColumns (·.map unsub)

def shiftRows (s : Block) : Block where
  c0 := ⟨s.c0.b0, s.c1.b1, s.c2.b2, s.c3.b3⟩
  c1 := ⟨s.c1.b0, s.c2.b1, s.c3.b2, s.c0.b3⟩
  c2 := ⟨s.c2.b0, s.c3.b1, s.c0.b2, s.c1.b3⟩
  c3 := ⟨s.c3.b0, s.c0.b1, s.c1.b2, s.c2.b3⟩

def unshiftRows (s : Block) : Block where
  c0 := ⟨s.c0.b0, s.c3.b1, s.c2.b2, s.c1.b3⟩
  c1 := ⟨s.c1.b0, s.c0.b1, s.c3.b2, s.c2.b3⟩
  c2 := ⟨s.c2.b0, s.c1.b1, s.c0.b2, s.c3.b3⟩
  c3 := ⟨s.c3.b0, s.c2.b1, s.c1.b2, s.c0.b3⟩

def mixColumns (s : Block) : Block :=
  s.mapColumns Column.mix

def unmixColumns (s : Block) : Block :=
  s.mapColumns Column.unmix

def ofBytes (bs : Bytes) : Block :=
  ⟨.ofBytes bs, .ofBytes (bs.drop 4), .ofBytes (bs.drop 8), .ofBytes (bs.drop 12)⟩

def toBytes (s : Block) : Bytes :=
  s.c0.toBytes ++ s.c1.toBytes ++ s.c2.toBytes ++ s.c3.toBytes

def split (bs : Bytes) : List Block :=
  (Bytes.chunks blockLength bs).map ofBytes

def join (blocks : List Block) : Bytes :=
  blocks.flatMap toBytes

@[simp] theorem length_toBytes (s : Block) : s.toBytes.length = blockLength := rfl

end Block
end TlsClient.Aes
