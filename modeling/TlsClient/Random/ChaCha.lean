import TlsClient.Random.Source
import TlsClient.Text

/-!
A seeded generator: the keystream of the ChaCha cipher with twelve rounds, a 64-bit block counter
from zero and a zero nonce, under a key that is expanded from a 64-bit seed. Words are handed out in
keystream order; a byte string takes whole words.
-/

namespace TlsClient

structure ChaCha where
  key : List UInt32
  block : UInt64
  unread : List UInt32
deriving DecidableEq

namespace ChaCha

structure Row where
  w0 : UInt32
  w1 : UInt32
  w2 : UInt32
  w3 : UInt32

namespace Row

def ofWords (ws : List UInt32) : Row :=
  ⟨ws.getD 0 0, ws.getD 1 0, ws.getD 2 0, ws.getD 3 0⟩

def words (x : Row) : List UInt32 :=
  [x.w0, x.w1, x.w2, x.w3]

def add (x y : Row) : Row :=
  ⟨x.w0 + y.w0, x.w1 + y.w1, x.w2 + y.w2, x.w3 + y.w3⟩

def xorRotate (x y : Row) (n : UInt32) : Row :=
  let f (a b : UInt32) : UInt32 :=
    let v := a ^^^ b
    (v <<< n) ||| (v >>> (32 - n))
  ⟨f x.w0 y.w0, f x.w1 y.w1, f x.w2 y.w2, f x.w3 y.w3⟩

def turn (x : Row) : Row :=
  ⟨x.w1, x.w2, x.w3, x.w0⟩

end Row

structure Matrix where
  a : Row
  b : Row
  c : Row
  d : Row

namespace Matrix

def columns (m : Matrix) : Matrix :=
  let a := m.a.add m.b
  let d := m.d.xorRotate a 16
  let c := m.c.add d
  let b := m.b.xorRotate c 12
  let a := a.add b
  let d := d.xorRotate a 8
  let c := c.add d
  let b := b.xorRotate c 7
  ⟨a, b, c, d⟩

def doubleRound (m : Matrix) : Matrix :=
  let m := m.columns
  -- Turning row `r` by `r` places makes columns of the diagonals.
  let m := columns ⟨m.a, m.b.turn, m.c.turn.turn, m.d.turn.turn.turn⟩
  ⟨m.a, m.b.turn.turn.turn, m.c.turn.turn, m.d.turn⟩

def rounds (m : Matrix) : Matrix :=
  Nat.repeat doubleRound 6 m

def words (m : Matrix) : List UInt32 :=
  m.a.words ++ m.b.words ++ m.c.words ++ m.d.words

end Matrix

def blockWords (key : List UInt32) (block : UInt64) : List UInt32 :=
  let m : Matrix :=
    ⟨⟨0x61707865, 0x3320646e, 0x79622d32, 0x6b206574⟩, .ofWords key, .ofWords (key.drop 4),
      ⟨block.toUInt32, (block >>> 32).toUInt32, 0, 0⟩⟩
  -- Without the sum the rounds could be undone.
  List.zipWith (· + ·) m.rounds.words m.words

def seedWords : (n : Nat) → (state : UInt64) → List UInt32
  | 0, _ => []
  | n + 1, state =>
    -- A linear congruential generator with a permuted output.
    let state := state * 6364136223846793005 + 11634580027462260723
    let shifted := (((state >>> 18) ^^^ state) >>> 27).toUInt32
    let turn := (state >>> 59).toUInt32
    ((shifted >>> turn) ||| (shifted <<< ((32 - turn) % 32))) :: seedWords n state

def ofSeed (seed : UInt64) : ChaCha :=
  ⟨seedWords 8 seed, 0, []⟩

def word (g : ChaCha) : UInt32 × ChaCha :=
  match g.unread with
  | w :: ws => (w, { g with unread := ws })
  | [] =>
    let ws := blockWords g.key g.block
    (ws.headD 0, { g with block := g.block + 1, unread := ws.tail })

def wordsOf (g : ChaCha) : (n : Nat) → List UInt32 × ChaCha
  | 0 => ([], g)
  | n + 1 =>
    let (w, g) := g.word
    let (ws, g) := g.wordsOf n
    (w :: ws, g)

def fill (g : ChaCha) (n : Nat) : Bytes × ChaCha :=
  -- What is left of the last word is dropped.
  let (ws, g) := g.wordsOf ((n + 3) / 4)
  ((ws.flatMap fun w => (Bytes.ofNat 4 w.toNat).reverse).take n, g)

theorem length_wordsOf (g : ChaCha) (n : Nat) : (g.wordsOf n).1.length = n := by
  induction n generalizing g with
  | zero => rfl
  | succ n ih => simp [wordsOf, ih]

theorem length_fill (g : ChaCha) (n : Nat) : (g.fill n).1.length = n := by
  have h (ws : List UInt32) :
      (ws.flatMap fun w => (Bytes.ofNat 4 w.toNat).reverse).length = 4 * ws.length := by
    induction ws with
    | nil => rfl
    | cons w ws ih =>
      simp only [List.flatMap_cons, List.length_append, ih, List.length_reverse,
        Bytes.length_ofNat, List.length_cons]
      omega
  simp only [fill, List.length_take, h, length_wordsOf]
  omega

instance : RandomSource ChaCha where
  word := word
  fill := fill
  length_fill := length_fill

def text (_ : ChaCha) : String :=
  Text.record "SeededRng" [("seeded", Text.truth true)]

end ChaCha
end TlsClient
