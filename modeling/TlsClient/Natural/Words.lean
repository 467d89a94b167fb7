/-!
Natural numbers as lists of 32-bit words, least significant word first. `value` gives the number
that a list denotes; every operation is word by word, with carries and borrows kept in 64 bits.
Division is by shift and subtract, one quotient bit a step.
-/

namespace TlsClient.Words

def value : List UInt32 → Nat
  | [] => 0
  | w :: ws => w.toNat + UInt32.size * value ws

def trim : List UInt32 → List UInt32
  | [] => []
  | w :: ws =>
    match trim ws with
    -- A zero word is dropped only if everything above it was.
    | [] => if w = 0 then [] else [w]
    | t => w :: t

def bitLength (ws : List UInt32) : Nat :=
  match (trim ws).getLast? with
  | none => 0
  | some top => 32 * ((trim ws).length - 1) + (Nat.log2 top.toNat + 1)

def testBit (ws : List UInt32) (i : Nat) : Bool :=
  (ws.getD (i / 32) 0).toNat.testBit (i % 32)

def propagate : List UInt32 → UInt64 → List UInt32
  | [], c => [c.toUInt32]
  | b :: bs, c =>
    let s := b.toUInt64 + c
    s.toUInt32 :: propagate bs (s >>> 32)

def addCarry : List UInt32 → List UInt32 → UInt64 → List UInt32
  | [], bs, c => propagate bs c
  | a :: as, [], c =>
    let s := a.toUInt64 + c
    s.toUInt32 :: addCarry as [] (s >>> 32)
  | a :: as, b :: bs, c =>
    let s := a.toUInt64 + b.toUInt64 + c
    s.toUInt32 :: addCarry as bs (s >>> 32)

def add (a b : List UInt32) : List UInt32 :=
  addCarry a b 0

/-- Difference with a borrow coming in, modulo the width of the first list. -/
def subBorrow : List UInt32 → List UInt32 → UInt64 → List UInt32
  | [], _, _ => []
  | a :: as, [], c =>
    (a.toUInt64 - c).toUInt32 :: subBorrow as [] (if a.toUInt64 < c then 1 else 0)
  | a :: as, b :: bs, c =>
    -- The sum of a word and a borrow is at most the width of a word, which 64 bits hold.
    let t := b.toUInt64 + c
    (a.toUInt64 - t).toUInt32 :: subBorrow as bs (if a.toUInt64 < t then 1 else 0)

def sub (a b : List UInt32) : List UInt32 :=
  subBorrow a b 0

def mulWord (x : UInt32) : List UInt32 → UInt64 → List UInt32
  | [], c => [c.toUInt32]
  | b :: bs, c =>
    let t := x.toUInt64 * b.toUInt64 + c
    t.toUInt32 :: mulWord x bs (t >>> 32)

def mul : List UInt32 → List UInt32 → List UInt32
  | [], _ => []
  -- One row a word, each one word further to the left.
  | x :: xs, b => add (mulWord x b 0) (0 :: mul xs b)

def shiftLeft (ws : List UInt32) (n : Nat) : List UInt32 :=
  List.replicate (n / 32) 0 ++ mulWord ((1 : UInt32) <<< UInt32.ofNat (n % 32)) ws 0

def shiftRightBits (s : UInt64) : List UInt32 → List UInt32
  | [] => []
  | w :: ws =>
    -- The bits that the next word loses are the top bits of this one.
    let next := (ws.headD 0).toUInt64
    (((next <<< 32) + w.toUInt64) >>> s).toUInt32 :: shiftRightBits s ws

def shiftRight (ws : List UInt32) (n : Nat) : List UInt32 :=
  shiftRightBits (UInt64.ofNat (n % 32)) (ws.drop (n / 32))

def halve : List UInt32 → List UInt32
  | [] => []
  | w :: ws => ((w >>> 1) + (ws.headD 0 <<< 31)) :: halve ws

def lessFrom : List UInt32 → List UInt32 → Bool → Bool
  | [], bs, v => if bs.all (· == 0) then v else true
  | a :: as, [], v => lessFrom as [] (if a = 0 then v else false)
  -- Words further up overrule those below.
  | a :: as, b :: bs, v => lessFrom as bs (if a = b then v else a < b)

def less (a b : List UInt32) : Bool :=
  lessFrom a b false

/-- A long division under way: what is left of the dividend, and the divisor where it now stands. -/
structure Division where
  rest : List UInt32
  divisor : List UInt32

namespace Division

def step (d : Division) : Division where
  rest := if less d.rest d.divisor then d.rest else sub d.rest d.divisor
  divisor := halve d.divisor

def run : Nat → Division → Division
  | 0, d => d
  | n + 1, d => run n d.step

end Division

def rem (a m : List UInt32) : List UInt32 :=
  if bitLength a < bitLength m then a else
    -- The divisor starts under the dividend's top bit.
    let shift := bitLength a - bitLength m
    (Division.run (shift + 1) ⟨a, shiftLeft m shift⟩).rest

/-- Trimmed words have no leading zero, which makes them the one representation of their number. -/
theorem getLast?_trim_ne (ws : List UInt32) : (trim ws).getLast? ≠ some 0 := by
  induction ws with
  | nil => simp [trim]
  | cons w ws ih =>
    rw [trim]
    split
    · split <;> simp_all
    · rename_i t ht
      obtain ⟨x, xs, hx⟩ := List.exists_cons_of_ne_nil ht
      rw [hx] at ih ⊢
      simpa using ih

theorem length_trim_le (ws : List UInt32) : (trim ws).length ≤ ws.length := by
  induction ws with
  | nil => simp [trim]
  | cons w ws ih =>
    rw [trim]
    split
    · split <;> simp
    · simpa using ih

@[simp] theorem length_shiftRightBits (s : UInt64) (ws : List UInt32) :
    (shiftRightBits s ws).length = ws.length := by
  induction ws with
  | nil => rfl
  | cons w ws ih => simp [shiftRightBits, ih]

theorem length_shiftRight_le (ws : List UInt32) (n : Nat) :
    (shiftRight ws n).length ≤ ws.length := by
  simp [shiftRight]

/-- Zero words at the top do not count. -/
theorem value_trim (ws : List UInt32) : value (trim ws) = value ws := by
  induction ws with
  | nil => rfl
  | cons w ws ih =>
    rw [trim]
    split
    · rename_i h
      have hws : value ws = 0 := by rw [← ih, h, value]
      split <;> simp_all [value]
    · simp [value, ih]

end TlsClient.Words
