import TlsClient.Error

namespace TlsClient.Der

structure Value where
  code : UInt8
  content : Bytes
deriving DecidableEq

namespace Value

def tag (v : Value) : Tag :=
  .ofCode v.code

def isConstructed (v : Value) : Bool :=
  v.code &&& 0x20 ≠ 0

/-- Reads a definite length: one byte below 128, or the number of length bytes, one to four, and
those bytes. -/
def parseLength : Wire.Parser Nat := do
  let first ← Wire.Parser.byte
  if first < 0x80 then return first.toNat else
    let count := first.toNat - 0x80
    if count = 0 ∨ count > 4 then Wire.Parser.fatal .lengthValue else Wire.Parser.number count

def parse : Wire.Parser Value := do
  let code ← Wire.Parser.byte
  -- The number of such a tag would follow in further bytes.
  if code &&& 0x1F = 0x1F then Wire.Parser.fatal .tag else
    let length ← parseLength
    let content ← Wire.Parser.take length
    return ⟨code, content⟩

theorem length_lt_of_parseLength {bs rest : Bytes} {n : Nat}
    (h : parseLength bs = .ok (n, rest)) : rest.length < bs.length := by
  cases bs with
  | nil => cases h
  | cons b bs =>
    simp only [parseLength, bind, StateT.bind, Wire.Parser.byte, Except.bind] at h
    split at h
    · have h : (Except.ok (b.toNat, bs) : Except Wire.Failure _) = .ok (n, rest) := h
      simp_all
    · split at h
      · simp [Wire.Parser.fatal] at h
      · obtain ⟨taken, ht, _⟩ := Wire.Parser.number_eq_ok_iff.1 h
        exact Nat.lt_succ_of_le (Wire.Parser.length_le_of_take ht)

/-- A value takes at least its tag off the input, so reading values one after the other ends. -/
theorem length_lt_of_parse {bs rest : Bytes} {v : Value} (h : parse bs = .ok (v, rest)) :
    rest.length < bs.length := by
  cases bs with
  | nil => cases h
  | cons b bs =>
    simp only [parse, bind, StateT.bind, Wire.Parser.byte, Except.bind] at h
    split at h
    · simp [Wire.Parser.fatal] at h
    · cases hl : parseLength bs with
      | error e => simp [StateT.bind, bind, Except.bind, hl] at h
      | ok r =>
        obtain ⟨n, afterLength⟩ := r
        have hlen := length_lt_of_parseLength hl
        cases ht : Wire.Parser.take n afterLength with
        | error e => simp [StateT.bind, bind, Except.bind, hl, ht] at h
        | ok t =>
          obtain ⟨content, afterContent⟩ := t
          have hcontent := Wire.Parser.length_le_of_take ht
          simp only [StateT.bind, bind, Except.bind, hl, ht] at h
          have h : (Except.ok (⟨b, content⟩, afterContent) : Except Wire.Failure _)
              = .ok (v, rest) := h
          simp only [Except.ok.injEq, Prod.mk.injEq] at h
          rw [← h.2, List.length_cons]
          omega

def parseExact (bs : Bytes) : Except Error Value :=
  match parse bs with
  | .error e => .error (.ofFailure e)
  | .ok (v, []) => .ok v
  | .ok (_, rest) => .error (.certificate (.trailingBytes rest.length))

/-- The values in a row that a byte string holds. A malformed one ends the row as an error. -/
def items (bs : Bytes) : List (Except Error Value) :=
  if bs.isEmpty then [] else
    match _ : parse bs with
    | .error e => [.error (.ofFailure e)]
    | .ok (v, rest) => .ok v :: items rest
termination_by bs.length
decreasing_by
  rename_i h
  exact length_lt_of_parse h

def childItems (v : Value) : List (Except Error Value) :=
  if v.isConstructed then items v.content else []

def children (v : Value) : Except Error (List Value) :=
  v.childItems.mapM id

def expect (v : Value) (tag : Tag) : Except Error Unit :=
  if v.tag = tag then .ok () else .error (.certificate (.unexpectedTag tag v.tag))

/-- The big-endian magnitude of an INTEGER that is not negative. One leading zero byte, which keeps
a positive number positive, is dropped. -/
def unsignedInteger (v : Value) : Except Error Bytes := do
  v.expect .integer
  match v.content with
  | [] => .error (.certificate .emptyInteger)
  | b :: rest =>
    if b ≥ 0x80 then .error (.certificate .negativeInteger)
    else if b = 0 ∧ rest ≠ [] then .ok rest
    else .ok (b :: rest)

def bitString (v : Value) : Except Error Bytes := do
  v.expect .bitString
  match v.content with
  | 0 :: rest => .ok rest
  | _ => .error (.certificate .unusedBits)

end Value
end TlsClient.Der
