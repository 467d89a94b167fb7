import TlsClient.Bytes

/-!
Reading wire formats. A `Parser` takes a value off the front of a byte string and hands on the rest.
A failure is either recoverable, so that a repetition may end before the item that failed, or fatal.
-/

namespace TlsClient.Wire

inductive Code where
  | eof
  | lengthValue
  | tooLarge
  | many0
  | many1
  | tag
  | char
  | fail
deriving DecidableEq

def Code.text : Code → String
  | .eof => "Eof"
  | .lengthValue => "LengthValue"
  | .tooLarge => "TooLarge"
  | .many0 => "Many0"
  | .many1 => "Many1"
  | .tag => "Tag"
  | .char => "Char"
  | .fail => "Fail"

def Code.all : List Code :=
  [.eof, .lengthValue, .tooLarge, .many0, .many1, .tag, .char, .fail]

inductive Failure where
  | recoverable (code : Code)
  | fatal (code : Code)
  | incomplete
deriving DecidableEq

def Failure.text : Failure → String
  | .recoverable code => "Error:" ++ code.text
  | .fatal code => "Failure:" ++ code.text
  | .incomplete => "Incomplete"

abbrev Parser (α : Type) := StateT Bytes (Except Failure) α

namespace Parser

variable {α : Type}

/-- A failure that ends a repetition. -/
def recoverable (code : Code) : Parser α :=
  fun _ => .error (.recoverable code)

/-- A failure that a repetition passes on. -/
def fatal (code : Code) : Parser α :=
  fun _ => .error (.fatal code)

def take (n : Nat) : Parser Bytes := fun input =>
  let taken := input.take n
  if taken.length = n then .ok (taken, input.drop n) else .error (.recoverable .eof)

def byte : Parser UInt8
  | [] => .error (.recoverable .eof)
  | b :: rest => .ok (b, rest)

def number (n : Nat) : Parser Nat :=
  Bytes.toNat <$> take n

def word16 : Parser UInt16 :=
  UInt16.ofNat <$> number 2

def word32 : Parser UInt32 :=
  UInt32.ofNat <$> number 4

def rest : Parser Bytes :=
  fun input => .ok (input, [])

def block (width : Nat) : Parser Bytes := do
  take (← number width)

/-- Applies a parser to a byte string of its own, of which it must leave nothing. -/
def within (bs : Bytes) (p : Parser α) : Parser α := fun input =>
  match p bs with
  | .ok (a, []) => .ok (a, input)
  -- Something is left over: the inner length and the outer one do not agree.
  | .ok (_, _ :: _) => .error (.fatal .lengthValue)
  | .error e => .error e

/-- Taking bytes succeeds exactly on an input that starts with them. -/
theorem take_eq_ok_iff {n : Nat} {input taken rest : Bytes} :
    take n input = .ok (taken, rest) ↔ taken.length = n ∧ input = taken ++ rest := by
  constructor
  · intro h
    simp only [take] at h
    split at h
    · rename_i hn
      simp only [Except.ok.injEq, Prod.mk.injEq] at h
      obtain ⟨rfl, rfl⟩ := h
      exact ⟨hn, (List.take_append_drop n input).symm⟩
    · simp at h
  · rintro ⟨rfl, rfl⟩
    simp [take]

theorem number_eq_ok_iff {n v : Nat} {input rest : Bytes} :
    number n input = .ok (v, rest) ↔
      ∃ taken, take n input = .ok (taken, rest) ∧ taken.toNat = v := by
  simp only [number, Functor.map, StateT.map, bind, Except.bind]
  cases take n input with
  | error e => simp
  | ok r => simp [pure, Except.pure]; grind

theorem length_le_of_take {n : Nat} {input taken rest : Bytes}
    (h : take n input = .ok (taken, rest)) : rest.length ≤ input.length := by
  rw [(take_eq_ok_iff.1 h).2, List.length_append]
  omega

end Parser
end TlsClient.Wire
