import TlsClient.Natural.Words
import TlsClient.Text

/-!
Natural numbers of bounded size. A `Natural` is a list of at most `capacity` words without leading
zeros, so each number has one representation. An operation whose result would be wider reports the
words it needs; nothing is ever cut off.
-/

namespace TlsClient

def Natural.capacity : Nat := 128

/-- A natural number of at most `Natural.capacity` words, least significant word first. -/
structure Natural where
  words : List UInt32
  length_le : words.length ≤ Natural.capacity
  top_ne_zero : words.getLast? ≠ some 0
deriving DecidableEq

inductive ArithmeticError where
  | capacityExceeded (needed : Nat)
  | bufferTooSmall (needed available : Nat)
  | underflow
  | divisionByZero
deriving DecidableEq

def ArithmeticError.name : ArithmeticError → String
  | .capacityExceeded _ => "CapacityExceeded"
  | .bufferTooSmall _ _ => "BufferTooSmall"
  | .underflow => "Underflow"
  | .divisionByZero => "DivisionByZero"

def ArithmeticError.message : ArithmeticError → String
  | .capacityExceeded needed =>
    "Result needs " ++ toString needed ++ " words, capacity is " ++ toString Natural.capacity
  | .bufferTooSmall needed available =>
    "Output needs " ++ toString needed ++ " bytes, only " ++ toString available ++ " available"
  | .underflow => "Subtraction underflow"
  | .divisionByZero => "Division by zero"

namespace Natural

def value (a : Natural) : Nat :=
  Words.value a.words

def ofWords (ws : List UInt32) : Except ArithmeticError Natural :=
  if h : (Words.trim ws).length ≤ capacity then
    .ok ⟨Words.trim ws, h, Words.getLast?_trim_ne ws⟩
  else
    .error (.capacityExceeded (Words.trim ws).length)

def ofWord (w : UInt32) : Natural where
  words := Words.trim [w]
  length_le := by
    simp only [Words.trim]
    split <;> simp [capacity]
  top_ne_zero := Words.getLast?_trim_ne [w]

def zero : Natural := ofWord 0

def one : Natural := ofWord 1

def isZero (a : Natural) : Bool :=
  a.words.isEmpty

def size (a : Natural) : Nat :=
  a.words.length

def bitLength (a : Natural) : Nat :=
  Words.bitLength a.words

def testBit (a : Natural) (i : Nat) : Bool :=
  Words.testBit a.words i

def bits (a : Natural) : List Bool :=
  (List.range a.bitLength).map a.testBit

def compare (a b : Natural) : Ordering :=
  if Words.less a.words b.words then .lt else if Words.less b.words a.words then .gt else .eq

def less (a b : Natural) : Bool :=
  a.compare b == .lt

def add (a b : Natural) : Except ArithmeticError Natural :=
  ofWords (Words.add a.words b.words)

def sub (a b : Natural) : Except ArithmeticError Natural :=
  if a.less b then .error .underflow else ofWords (Words.sub a.words b.words)

def mul (a b : Natural) : Except ArithmeticError Natural :=
  ofWords (Words.mul a.words b.words)

def shiftLeft (a : Natural) (n : Nat) : Except ArithmeticError Natural :=
  -- Zero stays zero, however far it is shifted.
  if a.isZero then .ok a else
    -- The width is checked before anything is built.
    let needed := (a.bitLength + n + 31) / 32
    if needed > capacity then .error (.capacityExceeded needed)
    else ofWords (Words.shiftLeft a.words n)

def shiftRight (a : Natural) (n : Nat) : Natural where
  words := Words.trim (Words.shiftRight a.words n)
  length_le := Nat.le_trans (Words.length_trim_le _)
    (Nat.le_trans (Words.length_shiftRight_le _ _) a.length_le)
  top_ne_zero := Words.getLast?_trim_ne _

def hex (a : Natural) : String :=
  match a.words.reverse with
  | [] => "0"
  | top :: rest =>
    Text.hexNat 1 top.toNat ++ String.join (rest.map fun w => Text.hexNat 8 w.toNat)

def text (a : Natural) : String :=
  Text.tagged "BigUint" ("0x" ++ a.hex)

end Natural
end TlsClient
