import TlsClient.Proofs.Access.Basic
import TlsClient.Proofs.Natural.Arithmetic
import TlsClient.Proofs.Natural.Modular

/-!
Arithmetic on numbers of bounded size with every access checked. The words stand in arrays, so what an
operation reads and writes depends on how many words its operands have: a `width` is the number of words
that an array is used for, and each step of a division goes through that many. Main statement:
`modPow_eq`, for operands of any size.
-/

namespace TlsClient

/-! ### Words in arrays -/

namespace Words

def wideCapacity : Nat := 2 * Natural.capacity

namespace Checked

/-- Looks at the top word of a number, among the `width` words of its array. -/
def bitLength (width : Nat) (ws : List UInt32) : Checked Nat := do
  if (trim ws).length ≠ 0 then Checked.touch (.index ((trim ws).length - 1) width)
  return Words.bitLength ws

/-- The top word of a number stands inside the array that its words stand in. -/
theorem bitLength_eq {width : Nat} {ws : List UInt32} (h : (trim ws).length ≤ width) :
    bitLength width ws = .ok (Words.bitLength ws) := by
  unfold bitLength
  split
  · have htop : (Access.index ((trim ws).length - 1) width).InRange := by
      rw [Access.inRange_index]
      omega
    rw [Checked.touch_eq htop]
    rfl
  · rfl

def less (width width' : Nat) (a b : List UInt32) : Checked Bool := do
  if (trim a).length = (trim b).length then
    Checked.loop (trim a).length fun i => [.index i width, .index i width']
  return Words.less a b

/-- Numbers are compared word by word only if they have as many words. -/
theorem less_eq {width width' : Nat} {a b : List UInt32} (h : (trim a).length ≤ width)
    (h' : (trim a).length = (trim b).length → (trim a).length ≤ width') :
    less width width' a b = .ok (Words.less a b) := by
  unfold less
  split
  · rename_i heq
    rw [Checked.loop_eq]
    · rfl
    · intro i hi access haccess
      simp only [List.mem_cons, List.not_mem_nil, or_false] at haccess
      rcases haccess with rfl | rfl
      · exact Nat.lt_of_lt_of_le hi h
      · exact Nat.lt_of_lt_of_le hi (h' heq)
  · rfl

def mul (a b : List UInt32) : Checked (List UInt32) := do
  Checked.touch (.slice 0 (a.length + b.length) wideCapacity)
  Checked.loop a.length fun i => (List.range (b.length + 1)).map fun j => .index (i + j) wideCapacity
  return Words.mul a b

/-- A product of numbers that fit side by side into the wide array does not grow out of it. -/
theorem mul_eq {a b : List UInt32} (h : a.length + b.length ≤ wideCapacity) :
    mul a b = .ok (Words.mul a b) := by
  have hslice : (Access.slice 0 (a.length + b.length) wideCapacity).InRange := ⟨Nat.zero_le _, h⟩
  rw [mul, Checked.touch_eq hslice, Checked.ok_bind, Checked.loop_eq]
  · rfl
  · intro i hi access haccess
    obtain ⟨j, hj, rfl⟩ := List.mem_map.1 haccess
    have hj := List.mem_range.1 hj
    rw [Access.inRange_index]
    omega

def shiftLeft (width : Nat) (ws : List UInt32) (bits : Nat) : Checked (List UInt32) := do
  Checked.loop ws.length fun i =>
    ([i + bits / 32, i + bits / 32 + 1].filter (· < width)).map fun k => .index k width
  return Words.shiftLeft ws bits

/-- Words that a shift moves beyond the array are dropped before they are written. -/
theorem shiftLeft_eq (width : Nat) (ws : List UInt32) (bits : Nat) :
    shiftLeft width ws bits = .ok (Words.shiftLeft ws bits) := by
  rw [shiftLeft, Checked.loop_eq]
  · rfl
  · intro i _ access haccess
    obtain ⟨k, hk, rfl⟩ := List.mem_map.1 haccess
    simpa using (List.mem_filter.1 hk).2

def halve (width : Nat) (ws : List UInt32) : Checked (List UInt32) := do
  Checked.loop width fun i =>
    (if i + 1 < width then [.index (i + 1) width] else []) ++ [.index i width]
  return Words.halve ws

theorem halve_eq (width : Nat) (ws : List UInt32) : halve width ws = .ok (Words.halve ws) := by
  rw [halve, Checked.loop_eq]
  · rfl
  · intro i hi access haccess
    rcases List.mem_append.1 haccess with haccess | haccess
    · split at haccess
      · rename_i hnext
        rw [List.mem_singleton] at haccess
        exact haccess ▸ hnext
      · cases haccess
    · rw [List.mem_singleton] at haccess
      exact haccess ▸ hi

def divide (width : Nat) : Nat → Division → Checked Division
  | 0, d => return d
  | n + 1, d => do
    let less ← less width width d.rest d.divisor
    let divisor ← halve width d.divisor
    divide width n ⟨if less then d.rest else Words.sub d.rest d.divisor, divisor⟩

/-- The rest never grows, so it keeps to the words that the dividend has. -/
theorem divide_eq {width : Nat} (n : Nat) (d : Division) (h : value d.rest < 2 ^ (32 * width)) :
    divide width n d = .ok (d.run n) := by
  induction n generalizing d with
  | zero => rfl
  | succ n ih =>
    have hrest : (trim d.rest).length ≤ width := length_le_of_value_lt h
    have hstep : value d.step.rest < 2 ^ (32 * width) := by
      rw [Division.value_rest_step]
      split <;> omega
    rw [divide, less_eq hrest fun _ => hrest, Checked.ok_bind, halve_eq, Checked.ok_bind]
    exact ih d.step hstep

def rem (width : Nat) (a m : List UInt32) : Checked (List UInt32) := do
  let bits ← bitLength m.length m
  let total ← bitLength width a
  if total < bits then return a
  else
    let shift ← Checked.difference total bits
    Checked.touch (.slice 0 width wideCapacity)
    let divisor ← shiftLeft width m shift
    return (← divide width (shift + 1) ⟨a, divisor⟩).rest

/-- The divisor moves within the width of the dividend, at each step of the division. -/
theorem rem_eq {width : Nat} {a m : List UInt32} (h : value a < 2 ^ (32 * width))
    (hwidth : width ≤ wideCapacity) : rem width a m = .ok (Words.rem a m) := by
  have hslice : (Access.slice 0 width wideCapacity).InRange := ⟨Nat.zero_le _, hwidth⟩
  rw [rem, bitLength_eq (length_trim_le m), Checked.ok_bind, bitLength_eq (length_le_of_value_lt h),
    Checked.ok_bind, Words.rem]
  split
  · rfl
  · rename_i hbits
    rw [Checked.difference_eq (Nat.not_lt.1 hbits), Checked.ok_bind, Checked.touch_eq hslice,
      Checked.ok_bind, shiftLeft_eq, Checked.ok_bind, divide_eq _ _ h]
    rfl

end Checked

theorem value_rem_le {a m : List UInt32} (hm : value m ≠ 0) : value (rem a m) ≤ value a := by
  rw [value_rem hm]
  exact Nat.mod_le _ _

end Words

/-! ### Numbers -/

namespace Natural.Checked

theorem value_ne_zero {m : Natural} (hm : ¬ m.isZero = true) : Words.value m.words ≠ 0 :=
  fun h => hm ((isZero_iff m).2 h)

def words (a : Natural) : Checked (List UInt32) := do
  Checked.touch (.slice 0 a.words.length capacity)
  return a.words

theorem words_eq (a : Natural) : words a = .ok a.words := by
  have hslice : (Access.slice 0 a.words.length capacity).InRange := ⟨Nat.zero_le _, a.length_le⟩
  rw [words, Checked.touch_eq hslice]
  rfl

def bitLength (a : Natural) : Checked Nat := do
  Words.Checked.bitLength a.size (← words a)

theorem bitLength_eq (a : Natural) : bitLength a = .ok a.bitLength := by
  rw [bitLength, words_eq, Checked.ok_bind]
  exact Words.Checked.bitLength_eq (Words.length_trim_le _)

def byteLength (a : Natural) : Checked Nat := do
  return ((← bitLength a) + 7) / 8

theorem byteLength_eq (a : Natural) : byteLength a = .ok a.byteLength := by
  rw [byteLength, bitLength_eq]
  rfl

def ofWords (width : Nat) (ws : List UInt32) : Checked.Attempt ArithmeticError Natural := do
  let length := (Words.trim ws).length
  if length ≤ capacity then
    Checked.touch (.slice 0 length capacity)
    Checked.touch (.slice 0 length width)
    Checked.touch (.copy length length)
  Checked.outcome (Natural.ofWords ws)

theorem ofWords_eq {width : Nat} {ws : List UInt32} (h : Words.value ws < 2 ^ (32 * width)) :
    ofWords width ws = Checked.outcome (Natural.ofWords ws) := by
  have hwidth := Words.length_le_of_value_lt h
  unfold ofWords
  dsimp only
  split
  · rename_i hfits
    simp [hwidth, hfits]
  · rfl

def ofBytes (bs : Bytes) : Checked.Attempt ArithmeticError Natural := do
  let significant := bs.dropWhile (· == 0)
  Checked.touch (.slice (bs.length - significant.length) bs.length bs.length)
  if (significant.length + 3) / 4 ≤ capacity then
    Checked.loop significant.length fun i => [.index (i / 4) capacity]
  Checked.outcome (Natural.ofBytes bs)

theorem ofBytes_eq (bs : Bytes) : ofBytes bs = Checked.outcome (Natural.ofBytes bs) := by
  have hslice (n : Nat) : (Access.slice (bs.length - n) bs.length bs.length).InRange :=
    ⟨Nat.sub_le _ _, Nat.le_refl _⟩
  unfold ofBytes
  dsimp only
  generalize (bs.dropWhile (· == 0)).length = n
  rw [Checked.touch_eq (hslice n), Checked.liftM_bind]
  split
  · rename_i hfits
    rw [Checked.loop_eq, Checked.liftM_bind]
    intro i hi access haccess
    rw [List.mem_singleton] at haccess
    rw [haccess, Access.inRange_index]
    omega
  · rfl

def less (a b : Natural) : Checked Bool := do
  let _ ← Words.Checked.less a.size b.size (← words a) (← words b)
  return a.less b

theorem less_eq (a b : Natural) : less a b = .ok (a.less b) := by
  have hbound : (Words.trim a.words).length = (Words.trim b.words).length →
      (Words.trim a.words).length ≤ b.words.length := fun h => h ▸ Words.length_trim_le _
  have hless : Words.Checked.less a.size b.size a.words b.words = .ok (Words.less a.words b.words) :=
    Words.Checked.less_eq (Words.length_trim_le _) hbound
  rw [less, words_eq, Checked.ok_bind, words_eq, Checked.ok_bind, hless]
  rfl

def testBit (a : Natural) (i : Nat) : Checked Bool := do
  if i / 32 < a.size then Checked.touch (.index (i / 32) capacity)
  return a.testBit i

theorem testBit_eq (a : Natural) (i : Nat) : testBit a i = .ok (a.testBit i) := by
  unfold testBit
  split
  · rename_i h
    have hindex : (Access.index (i / 32) capacity).InRange := Nat.lt_of_lt_of_le h a.length_le
    rw [Checked.touch_eq hindex]
    rfl
  · rfl

def rem (a m : Natural) : Checked.Attempt ArithmeticError Natural := do
  if m.isZero then throw .divisionByZero
  else
    Checked.touch (.slice 0 a.size capacity)
    let rest ← Words.Checked.rem a.size a.words (← words m)
    ofWords a.size rest

/-- A remainder is found in the words that the dividend has. -/
theorem rem_eq (a m : Natural) : rem a m = Checked.outcome (a.rem m) := by
  have hslice : (Access.slice 0 a.size capacity).InRange := ⟨Nat.zero_le _, a.length_le⟩
  have hwide : a.size ≤ Words.wideCapacity := Nat.le_trans a.length_le (by decide)
  have hvalue : Words.value a.words < 2 ^ (32 * a.size) := Words.value_lt a.words
  unfold rem Natural.rem
  split
  · rfl
  · rename_i hm
    have hmod := Words.value_rem_le (a := a.words) (value_ne_zero hm)
    rw [Checked.touch_eq hslice, Checked.liftM_bind, words_eq, Checked.liftM_bind,
      Words.Checked.rem_eq hvalue hwide, Checked.liftM_bind,
      ofWords_eq (Nat.lt_of_le_of_lt hmod hvalue)]

def modMul (a b m : Natural) : Checked.Attempt ArithmeticError Natural := do
  if m.isZero then throw .divisionByZero
  else
    let product ← Words.Checked.mul (← words a) (← words b)
    let width := a.size + b.size
    Checked.touch (.slice 0 width Words.wideCapacity)
    let rest ← Words.Checked.rem width product (← words m)
    Checked.touch (.slice 0 width Words.wideCapacity)
    ofWords width rest

/-- The product of two numbers of full size fits the wide array, and its remainder a number. -/
theorem modMul_eq (a b m : Natural) : modMul a b m = Checked.outcome (a.modMul b m) := by
  have hwide : a.words.length + b.words.length ≤ Words.wideCapacity := by
    have ha := a.length_le
    have hb := b.length_le
    rw [Words.wideCapacity]
    omega
  have hslice : (Access.slice 0 (a.size + b.size) Words.wideCapacity).InRange :=
    ⟨Nat.zero_le _, hwide⟩
  have hproduct : Words.value (Words.mul a.words b.words) < 2 ^ (32 * (a.size + b.size)) := by
    rw [Words.value_mul, Nat.mul_add, Nat.pow_add]
    exact Nat.mul_lt_mul'' (Words.value_lt a.words) (Words.value_lt b.words)
  unfold modMul Natural.modMul
  split
  · rfl
  · rename_i hm
    have hmod := Words.value_rem_le (a := Words.mul a.words b.words) (value_ne_zero hm)
    simp only [words_eq, Words.Checked.mul_eq hwide, Checked.touch_eq hslice,
      Words.Checked.rem_eq hproduct hwide, Checked.liftM_bind]
    exact ofWords_eq (Nat.lt_of_le_of_lt hmod hproduct)

def powBits (m e : Natural) : List Nat → (acc base : Natural) →
    Checked.Attempt ArithmeticError Natural
  | [], acc, _ => return acc
  | i :: is, acc, base => do
    let bit ← testBit e i
    let acc ← if bit then modMul acc base m else pure acc
    let base ← modMul base base m
    powBits m e is acc base

/-- Each step of a power stays in range, since its operands are reduced. -/
theorem powBits_eq (m e : Natural) (is : List Nat) (acc base : Natural) :
    powBits m e is acc base = Checked.outcome (Natural.powBits m (is.map e.testBit) acc base) := by
  induction is generalizing acc base with
  | nil => rfl
  | cons i is ih =>
    rw [powBits, testBit_eq, Checked.liftM_bind, List.map_cons, Natural.powBits]
    cases e.testBit i with
    | false =>
      change (modMul base base m >>= fun base => powBits m e is acc base) =
        Checked.outcome
          (base.modMul base m >>= fun base => Natural.powBits m (is.map e.testBit) acc base)
      simp only [modMul_eq, Checked.outcome_bind, ih]
    | true => simp only [if_true, modMul_eq, Checked.outcome_bind, ih]

def modPow (a e m : Natural) : Checked.Attempt ArithmeticError Natural := do
  let acc ← rem .one m
  let base ← rem a m
  let count ← bitLength e
  powBits m e (List.range count) acc base

/-- A power stays in range for operands of any size, the modulus zero included. -/
theorem modPow_eq (a e m : Natural) : modPow a e m = Checked.outcome (a.modPow e m) := by
  simp only [modPow, Natural.modPow, rem_eq, bitLength_eq, powBits_eq, Checked.liftM_bind,
    Checked.outcome_bind, Natural.bits]

def toBytes (a : Natural) (len : Nat) : Checked.Attempt ArithmeticError Bytes := do
  let needed ← byteLength a
  if needed ≤ len then
    Checked.loop needed fun i =>
      [.difference len 1, .difference (len - 1) i, .index (len - 1 - i) len, .index (i / 4) capacity]
  Checked.outcome (a.toBytes len)

theorem byteLength_le_capacity (a : Natural) : a.byteLength ≤ 4 * capacity := by
  have hbits : a.bitLength ≤ 32 * capacity := by
    rw [Natural.bitLength, Words.bitLength_eq_size, Nat.size_le]
    exact a.value_lt
  rw [Natural.byteLength]
  omega

/-- A number that is too long for the buffer is refused before its first byte is written. -/
theorem toBytes_eq (a : Natural) (len : Nat) : toBytes a len = Checked.outcome (a.toBytes len) := by
  rw [toBytes, byteLength_eq, Checked.liftM_bind]
  split
  · rename_i hfits
    have hcapacity := byteLength_le_capacity a
    rw [Checked.loop_eq, Checked.liftM_bind]
    intro i hi access haccess
    simp only [List.mem_cons, List.not_mem_nil, or_false] at haccess
    rcases haccess with rfl | rfl | rfl | rfl <;>
      simp only [Access.inRange_difference, Access.inRange_index] <;> omega
  · rfl

end Natural.Checked
end TlsClient
