import Mathlib.Data.Nat.Digits.Lemmas
import TlsClient.Proofs.Natural.Modular

namespace TlsClient

namespace Words

/-- Without the zeros at the top, the words of a number are its digits in base `2 ^ 32`. -/
theorem digits_value (ws : List UInt32) :
    Nat.digits (2 ^ 32) (value ws) = (trim ws).map UInt32.toNat := by
  induction ws with
  | nil => rfl
  | cons w ws ih =>
    have hw : w.toNat < 2 ^ 32 := w.toNat_lt
    have hzero : w = 0 ↔ w.toNat = 0 := UInt32.toNat_inj.symm
    have hdigits : Nat.digits (2 ^ 32) (value (w :: ws)) =
        if value (w :: ws) = 0 then [] else w.toNat :: Nat.digits (2 ^ 32) (value ws) := by
      split
      · rename_i h
        rw [h, Nat.digits_zero]
      · rename_i h
        have hmod : value (w :: ws) % 2 ^ 32 = w.toNat := by
          rw [value, UInt32.size]
          omega
        have hdiv : value (w :: ws) / 2 ^ 32 = value ws := by
          rw [value, UInt32.size]
          omega
        rw [Nat.digits_def' (by decide) (Nat.pos_of_ne_zero h), hmod, hdiv]
    rw [hdigits, trim, ih]
    cases htrim : trim ws with
    | nil =>
      -- There is nothing above this word, so it is a digit only if it is not zero.
      have hrest : value ws = 0 := by rw [← value_trim, htrim, value]
      by_cases h : w.toNat = 0
      · have hnone : value (w :: ws) = 0 := by rw [value, hrest, h, Nat.mul_zero]
        simp only [if_pos hnone, if_pos (hzero.2 h), List.map_nil]
      · have hsome : value (w :: ws) ≠ 0 := by
          rw [value]
          omega
        simp only [if_neg hsome, if_neg (mt hzero.1 h), List.map_nil, List.map_cons]
    | cons t ts =>
      have hrest : value ws ≠ 0 := by
        intro h
        rw [h, htrim, Nat.digits_zero] at ih
        cases ih
      rw [if_neg (by rw [value, UInt32.size]; omega)]
      rfl

theorem value_drop (ws : List UInt32) (k : Nat) : value (ws.drop k) = value ws / 2 ^ (32 * k) := by
  induction k generalizing ws with
  | zero => rw [List.drop_zero, Nat.mul_zero, Nat.pow_zero, Nat.div_one]
  | succ k ih =>
    cases ws with
    | nil => rw [List.drop_nil, value, Nat.zero_div]
    | cons w ws =>
      have hw : w.toNat < 2 ^ 32 := w.toNat_lt
      have hdiv : value (w :: ws) / 2 ^ 32 = value ws := by
        rw [value, UInt32.size]
        omega
      rw [List.drop_succ_cons, ih, Nat.mul_succ, Nat.add_comm, Nat.pow_add, ← Nat.div_div_eq_div_mul,
        hdiv]

theorem headD_mod (ws : List UInt32) : (ws.headD 0).toNat = value ws % 2 ^ 32 := by
  cases ws with
  | nil => rfl
  | cons w ws =>
    have hw : w.toNat < 2 ^ 32 := w.toNat_lt
    rw [value, UInt32.size, List.headD_cons]
    omega

/-- A word after a shift is made of its own upper bits and of the lower ones of the next word. -/
theorem toNat_shifted_word {s : Nat} (hs : s < 32) (w : UInt32) (ws : List UInt32) :
    (((((ws.headD 0).toUInt64 <<< 32) + w.toUInt64) >>> UInt64.ofNat s).toUInt32).toNat =
      value (w :: ws) / 2 ^ s % 2 ^ 32 := by
  have hw : w.toNat < 2 ^ 32 := w.toNat_lt
  have hhead := headD_mod ws
  have hlt : (ws.headD 0).toNat < 2 ^ 32 := UInt32.toNat_lt _
  have hs64 : (UInt64.ofNat s).toNat % 64 = s := by
    rw [UInt64.toNat_ofNat']
    omega
  have hsum : (((ws.headD 0).toUInt64 <<< 32) + w.toUInt64).toNat =
      2 ^ 32 * (ws.headD 0).toNat + w.toNat := by
    have hshift : ((ws.headD 0).toUInt64 <<< 32).toNat = 2 ^ 32 * (ws.headD 0).toNat := by
      rw [UInt64.toNat_shiftLeft, UInt32.toNat_toUInt64, Nat.shiftLeft_eq]
      change _ * 2 ^ 32 % 2 ^ 64 = _
      omega
    rw [UInt64.toNat_add, hshift, UInt32.toNat_toUInt64]
    omega
  have hvalue : value (w :: ws) = 2 ^ 32 * (ws.headD 0).toNat + w.toNat +
      2 ^ s * (2 ^ 32 * (2 ^ (32 - s) * (value ws / 2 ^ 32))) := by
    have hpow : 2 ^ s * (2 ^ 32 * (2 ^ (32 - s) * (value ws / 2 ^ 32))) =
        2 ^ 64 * (value ws / 2 ^ 32) := by
      have hsplit : (2 : Nat) ^ 64 = 2 ^ s * (2 ^ 32 * 2 ^ (32 - s)) := by
        rw [← Nat.pow_add, ← Nat.pow_add]
        congr 1
        omega
      rw [hsplit]
      ring
    rw [hpow, value, UInt32.size, hhead]
    omega
  rw [UInt64.toNat_toUInt32, UInt64.toNat_shiftRight, hs64, hsum, Nat.shiftRight_eq_div_pow, hvalue,
    Nat.add_mul_div_left _ _ (Nat.two_pow_pos s), Nat.add_mul_mod_self_left]

theorem value_shiftRightBits {s : Nat} (hs : s < 32) (ws : List UInt32) :
    value (shiftRightBits (UInt64.ofNat s) ws) = value ws / 2 ^ s := by
  induction ws with
  | nil => rw [shiftRightBits, value, Nat.zero_div]
  | cons w ws ih =>
    have hw : w.toNat < 2 ^ 32 := w.toNat_lt
    have hword := toNat_shifted_word hs w ws
    have hrest : value (w :: ws) / 2 ^ s / 2 ^ 32 = value ws / 2 ^ s := by
      have hdiv : value (w :: ws) / 2 ^ 32 = value ws := by
        rw [value, UInt32.size]
        omega
      rw [Nat.div_div_eq_div_mul, Nat.mul_comm, ← Nat.div_div_eq_div_mul, hdiv]
    rw [shiftRightBits, value, hword, ih, ← hrest, UInt32.size]
    exact Nat.mod_add_div _ _

/-- Bits that are shifted out are dropped, which rounds down. -/
theorem value_shiftRight (ws : List UInt32) (n : Nat) :
    value (shiftRight ws n) = value ws / 2 ^ n := by
  have hbits : n % 32 < 32 := Nat.mod_lt n (by decide)
  rw [shiftRight, value_shiftRightBits hbits, value_drop, Nat.div_div_eq_div_mul, ← Nat.pow_add,
    Nat.div_add_mod]

end Words

namespace Natural

/-- What an operation comes to whose true result is `v`: a number with this value, if it is below
`2 ^ 4096`, and otherwise a report of the words that it takes. -/
inductive Exact (v : Nat) : Except ArithmeticError Natural → Prop
  | fits {a : Natural} (hlt : v < 2 ^ 4096) (hvalue : a.value = v) : Exact v (.ok a)
  | exceeds (hle : 2 ^ 4096 ≤ v) :
    Exact v (.error (.capacityExceeded (Nat.digits (2 ^ 32) v).length))

inductive ExactDifference (v w : Nat) : Except ArithmeticError Natural → Prop
  | fits {a : Natural} (hle : w ≤ v) (hvalue : a.value = v - w) : ExactDifference v w (.ok a)
  | underflow (hlt : v < w) : ExactDifference v w (.error .underflow)

/-- The words are the digits of the number, the lowest one first. -/
theorem map_words (a : Natural) : a.words.map UInt32.toNat = Nat.digits (2 ^ 32) a.value := by
  have htrim : Words.trim a.words = a.words := by
    have htop := a.top_ne_zero
    generalize a.words = ws at htop
    induction ws with
    | nil => rfl
    | cons w ws ih =>
      cases ws with
      | nil =>
        have hne : w ≠ 0 := fun h => htop (by rw [h]; rfl)
        simp only [Words.trim, if_neg hne]
      | cons x xs =>
        have hrest := ih (by rwa [List.getLast?_cons_cons] at htop)
        rw [Words.trim, hrest]
  rw [value, Words.digits_value, htrim]

/-- Each number has one representation. -/
theorem value_inj {a b : Natural} : a.value = b.value ↔ a = b := by
  constructor
  · intro h
    have hwords : a.words.map UInt32.toNat = b.words.map UInt32.toNat := by
      rw [map_words, map_words, h]
    have heq : a.words = b.words :=
      List.map_injective_iff.2 (fun _ _ => UInt32.toNat_inj.1) hwords
    cases a
    cases b
    cases heq
    rfl
  · exact congrArg value

/-- The digits in base `2 ^ k` are pieces of `k` bits. -/
theorem length_digits {k : Nat} (hk : 0 < k) (v : Nat) :
    (Nat.digits (2 ^ k) v).length = (Nat.size v + (k - 1)) / k := by
  apply eq_of_forall_ge_iff
  intro n
  rw [Nat.digits_length_le_iff (Nat.one_lt_two_pow (Nat.ne_of_gt hk)), ← Nat.pow_mul, ← Nat.size_le,
    Nat.div_le_iff_le_mul_add_pred hk]
  omega

theorem two_pow_capacity : 2 ^ (32 * capacity) = 2 ^ 4096 :=
  congrArg (fun k => 2 ^ k) (rfl : 32 * capacity = 4096)

theorem value_lt_two_pow (a : Natural) : a.value < 2 ^ 4096 :=
  two_pow_capacity ▸ a.value_lt

/-- The digits of a number are as many as there may be words if it is below the bound. -/
theorem length_digits_le_iff (v : Nat) :
    (Nat.digits (2 ^ 32) v).length ≤ capacity ↔ v < 2 ^ 4096 := by
  rw [Nat.digits_length_le_iff (by decide), ← Nat.pow_mul, two_pow_capacity]

/-- Words are taken as a number if it fits, and are counted otherwise. -/
theorem ofWords_exact (ws : List UInt32) : Exact (Words.value ws) (ofWords ws) := by
  by_cases h : Words.value ws < 2 ^ 4096
  · have hlt : Words.value ws < 2 ^ (32 * capacity) := by rwa [two_pow_capacity]
    obtain ⟨a, ha, hvalue⟩ := ofWords_eq_ok hlt
    rw [ha]
    exact .fits h hvalue
  · have hlength : (Words.trim ws).length = (Nat.digits (2 ^ 32) (Words.value ws)).length := by
      rw [Words.digits_value, List.length_map]
    have hlong : ¬ (Words.trim ws).length ≤ capacity := by
      rw [hlength, length_digits_le_iff]
      exact h
    rw [ofWords, dif_neg hlong, hlength]
    exact .exceeds (Nat.not_lt.1 h)

/-- A byte string is read if its number is below the bound, however long it is. -/
theorem ofBytes_exact (bs : Bytes) : Exact bs.toNat (ofBytes bs) := by
  have hvalue : Words.value (Words.ofLittleEndian bs.reverse) = bs.toNat := by
    rw [Words.value_ofLittleEndian, List.reverse_reverse]
  rw [← hvalue]
  exact ofWords_exact _

/-- An exact operation gives the number with the true value, and no other. -/
theorem Exact.eq_ok_iff {v : Nat} {r : Except ArithmeticError Natural} (h : Exact v r) {a : Natural} :
    r = .ok a ↔ a.value = v := by
  cases h with
  | fits hlt hvalue => rw [Except.ok.injEq, ← hvalue, value_inj, eq_comm]
  | exceeds hle =>
    constructor
    · exact nofun
    · intro hv
      exact absurd (value_lt_two_pow a) (Nat.not_lt.2 (hv ▸ hle))

/-- Every value below the bound is that of a number. -/
theorem exists_value {v : Nat} (h : v < 2 ^ 4096) : ∃ a : Natural, a.value = v := by
  have hpow (n : Nat) : 256 ^ n = 2 ^ (8 * n) := by rw [Nat.pow_mul]
  have hlt : v < 256 ^ (4 * capacity) := by
    rw [hpow, ← Nat.mul_assoc, two_pow_capacity]
    exact h
  have hbytes : (Bytes.ofNat (4 * capacity) v).toNat = v := by
    rw [Bytes.toNat_ofNat, Nat.mod_eq_of_lt hlt]
  obtain ⟨a, -, ha⟩ := ofBytes_eq_ok (Bytes.length_ofNat (4 * capacity) v).le
  exact ⟨a, ha.trans hbytes⟩

/-- A difference is exact, or there is none. -/
theorem sub_exact (a b : Natural) : ExactDifference a.value b.value (a.sub b) := by
  rw [sub]
  by_cases h : a.less b = true
  · rw [if_pos h]
    exact .underflow ((less_iff a b).1 h)
  · have hle : b.value ≤ a.value := Nat.not_lt.1 (mt (less_iff a b).2 h)
    have hvalue : Words.value (Words.sub a.words b.words) = a.value - b.value := Words.value_sub hle
    have hlt : Words.value (Words.sub a.words b.words) < 2 ^ (32 * capacity) := by
      rw [hvalue]
      exact Nat.lt_of_le_of_lt (Nat.sub_le _ _) a.value_lt
    obtain ⟨c, hc, hv⟩ := ofWords_eq_ok hlt
    rw [if_neg h, hc]
    exact .fits hle (hv.trans hvalue)

/-- The width that is checked beforehand is the one that the result has. -/
theorem shiftLeft_exact (a : Natural) (n : Nat) :
    Exact (a.value * 2 ^ n) (a.shiftLeft n) := by
  rw [shiftLeft]
  by_cases hzero : a.isZero = true
  · have hvalue : a.value = 0 := (isZero_iff a).1 hzero
    have hlt := value_lt_two_pow a
    rw [if_pos hzero, hvalue, Nat.zero_mul]
    rw [hvalue] at hlt
    exact .fits hlt hvalue
  · have hne : a.value ≠ 0 := mt (isZero_iff a).2 hzero
    have hsize : Nat.size (a.value * 2 ^ n) = a.bitLength + n := by
      have hbits : a.bitLength = Nat.size a.value := Words.bitLength_eq_size a.words
      rw [← Nat.shiftLeft_eq, Nat.size_shiftLeft hne, hbits]
    have hneeded : (a.bitLength + n + 31) / 32 = (Nat.digits (2 ^ 32) (a.value * 2 ^ n)).length := by
      rw [length_digits (by decide : 0 < 32), hsize]
    have hvalue : Words.value (Words.shiftLeft a.words n) = a.value * 2 ^ n :=
      Words.value_shiftLeft a.words n
    rw [if_neg hzero]
    dsimp only
    rw [hneeded]
    by_cases hlong : (Nat.digits (2 ^ 32) (a.value * 2 ^ n)).length > capacity
    · rw [if_pos hlong]
      exact .exceeds (Nat.not_lt.1 fun hlt => Nat.not_le.2 hlong ((length_digits_le_iff _).2 hlt))
    · rw [if_neg hlong, ← hvalue]
      exact ofWords_exact _

theorem value_shiftRight (a : Natural) (n : Nat) : (a.shiftRight n).value = a.value / 2 ^ n := by
  rw [value, shiftRight, Words.value_trim, Words.value_shiftRight]
  rfl

/-- Words are compared as the values that they denote. -/
theorem compare_eq (a b : Natural) : a.compare b = Ord.compare a.value b.value := by
  have hless := Words.less_eq_true_iff a.words b.words
  have hgreater := Words.less_eq_true_iff b.words a.words
  rw [compare]
  rcases Nat.lt_trichotomy a.value b.value with h | h | h
  · rw [if_pos (hless.2 h), Nat.compare_eq_lt.2 h]
  · rw [if_neg (fun hlt => Nat.ne_of_lt (hless.1 hlt) h),
      if_neg (fun hlt => Nat.ne_of_lt (hgreater.1 hlt) h.symm), Nat.compare_eq_eq.2 h]
  · rw [if_neg (fun hlt => Nat.lt_asymm h (hless.1 hlt)), if_pos (hgreater.2 h),
      Nat.compare_eq_gt.2 h]

/-- Arithmetic on numbers of bounded size is that of the natural numbers. Sums, products and shifts to
the left are exact or report how wide they are, differences are exact or report that there is none,
and nothing else depends on how a number is held, which is as its digits without leading zeros. -/
theorem operations_exact (a b : Natural) (n : Nat) :
    Exact (a.value + b.value) (a.add b) ∧
    Exact (a.value * b.value) (a.mul b) ∧
    Exact (a.value * 2 ^ n) (a.shiftLeft n) ∧
    ExactDifference a.value b.value (a.sub b) ∧
    (a.shiftRight n).value = a.value / 2 ^ n ∧
    a.compare b = Ord.compare a.value b.value ∧
    (a == b) = (a.value == b.value) ∧
    a.bitLength = Nat.size a.value ∧
    a.testBit n = a.value.testBit n ∧
    a.words.map UInt32.toNat = Nat.digits (2 ^ 32) a.value ∧ a.value < 2 ^ 4096 := by
  have hadd : Words.value (Words.add a.words b.words) = a.value + b.value := Words.value_add _ _
  have hmul : Words.value (Words.mul a.words b.words) = a.value * b.value := Words.value_mul _ _
  refine ⟨?_, ?_, shiftLeft_exact a n, sub_exact a b, value_shiftRight a n, compare_eq a b, ?_,
    Words.bitLength_eq_size a.words, Words.testBit_eq a.words n, map_words a, value_lt_two_pow a⟩
  · rw [← hadd]
    exact ofWords_exact _
  · rw [← hmul]
    exact ofWords_exact _
  · rw [Bool.eq_iff_iff, beq_iff_eq, beq_iff_eq]
    exact value_inj.symm

end Natural
end TlsClient
