import Mathlib.Data.Nat.Size
import Mathlib.Tactic.Ring
import TlsClient.Natural.Words

namespace TlsClient.Words

/-- The words behind weigh more by the width of those in front. -/
theorem value_append (a b : List UInt32) :
    value (a ++ b) = value a + 2 ^ (32 * a.length) * value b := by
  induction a with
  | nil => simp [value]
  | cons x xs ih =>
    rw [List.cons_append, value, value, ih, List.length_cons, Nat.mul_succ, Nat.pow_add,
      UInt32.size]
    ring

theorem value_replicate_zero (n : Nat) : value (List.replicate n 0) = 0 := by
  induction n with
  | zero => rfl
  | succ n ih => simp [List.replicate_succ, value, ih]

theorem value_lt (ws : List UInt32) : value ws < 2 ^ (32 * ws.length) := by
  induction ws with
  | nil => exact Nat.one_pos
  | cons w ws ih =>
    have hw : w.toNat < 2 ^ 32 := w.toNat_lt
    rw [value, List.length_cons, Nat.mul_succ, Nat.pow_add, UInt32.size]
    omega

theorem value_eq_zero_of_all {ws : List UInt32} (h : ∀ w ∈ ws, w = 0) : value ws = 0 := by
  rw [List.eq_replicate_of_mem h]
  exact value_replicate_zero _

theorem all_of_value_eq_zero {ws : List UInt32} (h : value ws = 0) : ∀ w ∈ ws, w = 0 := by
  induction ws with
  | nil => simp
  | cons x xs ih =>
    rw [value, UInt32.size] at h
    have hx : x.toNat = (0 : UInt32).toNat := by
      rw [UInt32.toNat_zero]
      omega
    have hxs := ih (by omega)
    intro w hw
    rcases List.mem_cons.1 hw with rfl | hw
    · exact UInt32.toNat_inj.1 hx
    · exact hxs w hw

/-- The low word and what is carried on make up the 64-bit number. -/
theorem low_add_carry (t : UInt64) :
    t.toUInt32.toNat + 2 ^ 32 * (t >>> 32).toNat = t.toNat := by
  have hlow : t.toUInt32.toNat = t.toNat % 2 ^ 32 := UInt64.toNat_toUInt32 t
  have hhigh : (t >>> 32).toNat = t.toNat / 2 ^ 32 := by
    rw [UInt64.toNat_shiftRight, Nat.shiftRight_eq_div_pow]
    rfl
  rw [hlow, hhigh]
  exact Nat.mod_add_div _ _

/-- A carry runs on until it is used up, with a word more at the end if need be. -/
theorem value_propagate (ws : List UInt32) (c : UInt64) (hc : c.toNat < 2 ^ 32) :
    value (propagate ws c) = value ws + c.toNat := by
  induction ws generalizing c with
  | nil =>
    have hlow : c.toUInt32.toNat = c.toNat := by
      rw [UInt64.toNat_toUInt32]
      exact Nat.mod_eq_of_lt hc
    simp [propagate, value, hlow]
  | cons w ws ih =>
    have hw : w.toNat < 2 ^ 32 := w.toNat_lt
    have hsum : (w.toUInt64 + c).toNat = w.toNat + c.toNat := by
      rw [UInt64.toNat_add, UInt32.toNat_toUInt64]
      omega
    have hsplit := low_add_carry (w.toUInt64 + c)
    have hrest := ih ((w.toUInt64 + c) >>> 32) (by omega)
    simp only [propagate, value, UInt32.size, hrest]
    omega

/-- Sums are exact, carries included. -/
theorem value_addCarry (a b : List UInt32) (c : UInt64) (hc : c.toNat < 2 ^ 32) :
    value (addCarry a b c) = value a + value b + c.toNat := by
  induction a generalizing b c with
  | nil => simp [addCarry, value, value_propagate b c hc]
  | cons x xs ih =>
    have hx : x.toNat < 2 ^ 32 := x.toNat_lt
    cases b with
    | nil =>
      have hsum : (x.toUInt64 + c).toNat = x.toNat + c.toNat := by
        rw [UInt64.toNat_add, UInt32.toNat_toUInt64]
        omega
      have hsplit := low_add_carry (x.toUInt64 + c)
      have hrest := ih [] ((x.toUInt64 + c) >>> 32) (by omega)
      simp only [addCarry, value, UInt32.size, hrest]
      omega
    | cons y ys =>
      have hy : y.toNat < 2 ^ 32 := y.toNat_lt
      have hsum : (x.toUInt64 + y.toUInt64 + c).toNat = x.toNat + y.toNat + c.toNat := by
        rw [UInt64.toNat_add, UInt64.toNat_add, UInt32.toNat_toUInt64, UInt32.toNat_toUInt64]
        omega
      have hsplit := low_add_carry (x.toUInt64 + y.toUInt64 + c)
      have hrest := ih ys ((x.toUInt64 + y.toUInt64 + c) >>> 32) (by omega)
      simp only [addCarry, value, UInt32.size, hrest]
      omega

theorem value_add (a b : List UInt32) : value (add a b) = value a + value b :=
  value_addCarry a b 0 (by decide)

theorem value_mulWord (x : UInt32) (ws : List UInt32) (c : UInt64) (hc : c.toNat < 2 ^ 32) :
    value (mulWord x ws c) = x.toNat * value ws + c.toNat := by
  induction ws generalizing c with
  | nil =>
    have hlow : c.toUInt32.toNat = c.toNat := by
      rw [UInt64.toNat_toUInt32]
      exact Nat.mod_eq_of_lt hc
    simp [mulWord, value, hlow]
  | cons w ws ih =>
    have hx : x.toNat ≤ 2 ^ 32 - 1 := Nat.le_sub_one_of_lt x.toNat_lt
    have hw : w.toNat ≤ 2 ^ 32 - 1 := Nat.le_sub_one_of_lt w.toNat_lt
    have hproduct : x.toNat * w.toNat ≤ (2 ^ 32 - 1) * (2 ^ 32 - 1) := Nat.mul_le_mul hx hw
    -- The largest product leaves room for one more word.
    have hsum : (x.toUInt64 * w.toUInt64 + c).toNat = x.toNat * w.toNat + c.toNat := by
      rw [UInt64.toNat_add, UInt64.toNat_mul, UInt32.toNat_toUInt64, UInt32.toNat_toUInt64]
      omega
    have hsplit := low_add_carry (x.toUInt64 * w.toUInt64 + c)
    have hrest := ih ((x.toUInt64 * w.toUInt64 + c) >>> 32) (by omega)
    simp only [mulWord, value, UInt32.size, hrest]
    calc
      _ = (x.toUInt64 * w.toUInt64 + c).toUInt32.toNat
            + 2 ^ 32 * ((x.toUInt64 * w.toUInt64 + c) >>> 32).toNat
            + 2 ^ 32 * (x.toNat * value ws) := by ring
      _ = x.toNat * (w.toNat + 4294967296 * value ws) + c.toNat := by
        rw [hsplit, hsum]
        ring

/-- The product by rows is the product of the values. -/
theorem value_mul (a b : List UInt32) : value (mul a b) = value a * value b := by
  induction a with
  | nil => simp [mul, value]
  | cons x xs ih =>
    have hrow := value_mulWord x b 0 (by decide)
    rw [mul, value_add, hrow, value, value, ih, UInt64.toNat_zero, UInt32.toNat_zero]
    ring

theorem value_shiftLeft (ws : List UInt32) (n : Nat) :
    value (shiftLeft ws n) = value ws * 2 ^ n := by
  have hbits : ((1 : UInt32) <<< UInt32.ofNat (n % 32)).toNat = 2 ^ (n % 32) := by
    have hlt : n % 32 < 32 := Nat.mod_lt _ (by decide)
    have hpow : 2 ^ (n % 32) < 2 ^ 32 := Nat.pow_lt_pow_right (by decide) hlt
    rw [UInt32.toNat_shiftLeft, UInt32.toNat_ofNat', Nat.mod_eq_of_lt (by omega : n % 32 < 2 ^ 32),
      Nat.mod_eq_of_lt hlt, UInt32.toNat_one, Nat.one_shiftLeft, Nat.mod_eq_of_lt hpow]
  have hrow := value_mulWord ((1 : UInt32) <<< UInt32.ofNat (n % 32)) ws 0 (by decide)
  calc
    value (shiftLeft ws n) = 2 ^ (32 * (n / 32)) * (2 ^ (n % 32) * value ws) := by
      rw [shiftLeft, value_append, value_replicate_zero, hrow, hbits, List.length_replicate,
        UInt64.toNat_zero, Nat.zero_add, Nat.add_zero]
    _ = value ws * 2 ^ (32 * (n / 32) + n % 32) := by
      rw [Nat.pow_add]
      ring
    _ = value ws * 2 ^ n := by rw [Nat.div_add_mod]

theorem value_mod_two (ws : List UInt32) : value ws % 2 = (ws.headD 0).toNat % 2 := by
  cases ws with
  | nil => rfl
  | cons w ws =>
    rw [value, UInt32.size, List.headD_cons]
    omega

/-- The lowest bit is dropped and every other one moves down, over the boundaries of the words. -/
theorem value_halve (ws : List UInt32) : value (halve ws) = value ws / 2 := by
  induction ws with
  | nil => rfl
  | cons w ws ih =>
    have hw : w.toNat < 2 ^ 32 := w.toNat_lt
    -- The lowest bit of the next word becomes the top bit of this one.
    have hshifted : (ws.headD 0 <<< 31).toNat = 2 ^ 31 * (value ws % 2) := by
      rw [value_mod_two, UInt32.toNat_shiftLeft, Nat.shiftLeft_eq]
      change _ * 2 ^ 31 % 2 ^ 32 = _
      omega
    have hhalf : (w >>> 1).toNat = w.toNat / 2 := by
      rw [UInt32.toNat_shiftRight, Nat.shiftRight_eq_div_pow]
      rfl
    have hword : ((w >>> 1) + (ws.headD 0 <<< 31)).toNat = w.toNat / 2 + 2 ^ 31 * (value ws % 2) := by
      rw [UInt32.toNat_add, hhalf, hshifted]
      omega
    simp only [halve, value, UInt32.size, ih, hword]
    omega

/-- One word of a difference and the borrow that it leaves. -/
theorem word_sub_borrow (x : UInt32) (t : UInt64) (ht : t.toNat ≤ 2 ^ 32) :
    (x.toUInt64 - t).toUInt32.toNat + t.toNat =
      x.toNat + 2 ^ 32 * (if x.toUInt64 < t then (1 : UInt64) else 0).toNat := by
  have hx : x.toNat < 2 ^ 32 := x.toNat_lt
  have hlt : x.toUInt64 < t ↔ x.toNat < t.toNat := by
    rw [UInt64.lt_iff_toNat_lt, UInt32.toNat_toUInt64]
  have hlow : (x.toUInt64 - t).toUInt32.toNat = (2 ^ 64 - t.toNat + x.toNat) % 2 ^ 32 := by
    rw [UInt64.toNat_toUInt32, UInt64.toNat_sub, UInt32.toNat_toUInt64]
    omega
  by_cases h : x.toUInt64 < t
  · rw [if_pos h, hlow, UInt64.toNat_one]
    have hborrow := hlt.1 h
    omega
  · rw [if_neg h, hlow, UInt64.toNat_zero]
    have hno := mt hlt.2 h
    omega

/-- With borrows a difference is exact as long as it is not negative. -/
theorem value_subBorrow (a b : List UInt32) (c : UInt64) (hc : c.toNat ≤ 1)
    (h : value b + c.toNat ≤ value a) :
    value (subBorrow a b c) + value b + c.toNat = value a := by
  induction a generalizing b c with
  | nil =>
    rw [value] at h
    simp only [subBorrow, value]
    omega
  | cons x xs ih =>
    have hborrow (t : UInt64) : (if x.toUInt64 < t then (1 : UInt64) else 0).toNat ≤ 1 := by
      split <;> decide
    cases b with
    | nil =>
      have hword := word_sub_borrow x c (by omega)
      have hlow : (x.toUInt64 - c).toUInt32.toNat < 2 ^ 32 := UInt32.toNat_lt _
      simp only [value, UInt32.size] at h
      have hrest := ih [] (if x.toUInt64 < c then 1 else 0) (hborrow c) (by
        rw [value]
        omega)
      simp only [subBorrow, value, UInt32.size] at hrest ⊢
      omega
    | cons y ys =>
      have hy : y.toNat < 2 ^ 32 := y.toNat_lt
      have hsum : (y.toUInt64 + c).toNat = y.toNat + c.toNat := by
        rw [UInt64.toNat_add, UInt32.toNat_toUInt64]
        omega
      have hword := word_sub_borrow x (y.toUInt64 + c) (by omega)
      have hlow : (x.toUInt64 - (y.toUInt64 + c)).toUInt32.toNat < 2 ^ 32 := UInt32.toNat_lt _
      simp only [value, UInt32.size] at h
      have hrest := ih ys (if x.toUInt64 < y.toUInt64 + c then 1 else 0)
        (hborrow (y.toUInt64 + c)) (by omega)
      simp only [subBorrow, value, UInt32.size] at hrest ⊢
      omega

theorem value_sub {a b : List UInt32} (h : value b ≤ value a) :
    value (sub a b) = value a - value b := by
  have hzero : (0 : UInt64).toNat = 0 := rfl
  have hsum := value_subBorrow a b 0 (by decide) (by omega)
  rw [sub]
  omega

/-- The verdict on higher words decides, and on lower ones only if the higher ones are equal. -/
theorem lessFrom_eq_true_iff (a b : List UInt32) (v : Bool) :
    lessFrom a b v = true ↔ value a < value b ∨ value a = value b ∧ v = true := by
  -- The words further up decide; where they agree it is up to these words, then to `v`.
  have hword (x y m n : Nat) (hx : x < 2 ^ 32) (hy : y < 2 ^ 32) (p q : Prop)
      (hp : p ↔ x < y ∨ x = y ∧ q) :
      m < n ∨ m = n ∧ p ↔ x + 2 ^ 32 * m < y + 2 ^ 32 * n ∨ x + 2 ^ 32 * m = y + 2 ^ 32 * n ∧ q := by
    rw [hp]
    by_cases hq : q <;> simp only [hq, and_true, and_false, or_false] <;> omega
  induction a generalizing b v with
  | nil =>
    rw [lessFrom, value]
    by_cases hall : b.all (· == 0) = true
    · have hzero := value_eq_zero_of_all (by simpa using hall)
      simp [hall, hzero]
    · have hne : value b ≠ 0 := fun h => hall (by simpa using all_of_value_eq_zero h)
      simp only [hall, Bool.false_eq_true, if_false, true_iff]
      omega
  | cons x xs ih =>
    have hx : x.toNat < 2 ^ 32 := x.toNat_lt
    cases b with
    | nil =>
      have hzero : x = 0 ↔ x.toNat = 0 := UInt32.toNat_inj.symm
      rw [lessFrom, value, value]
      apply (ih _ _).trans
      apply hword x.toNat 0 (value xs) 0 hx (by decide)
      by_cases h : x = 0 <;> simp [h, hzero.not.1]
    | cons y ys =>
      have hy : y.toNat < 2 ^ 32 := y.toNat_lt
      rw [lessFrom, value, value]
      apply (ih _ _).trans
      apply hword x.toNat y.toNat (value xs) (value ys) hx hy
      by_cases h : x = y
      · simp [h]
      · have hne : x.toNat ≠ y.toNat := fun heq => h (UInt32.toNat_inj.1 heq)
        simp [h, hne, UInt32.lt_iff_toNat_lt]

theorem less_eq_true_iff (a b : List UInt32) : less a b = true ↔ value a < value b := by
  rw [less, lessFrom_eq_true_iff]
  simp

/-- The top word that is left after trimming is not zero. -/
theorem toNat_top_pos {ws init : List UInt32} {top : UInt32} (h : trim ws = init ++ [top]) :
    0 < top.toNat := by
  apply Nat.pos_of_ne_zero
  intro hzero
  have htop : top = 0 := UInt32.toNat_inj.1 hzero
  apply getLast?_trim_ne ws
  rw [h, List.getLast?_concat, htop]

/-- A small value has few words once it is trimmed. -/
theorem length_le_of_value_lt {ws : List UInt32} {n : Nat} (h : value ws < 2 ^ (32 * n)) :
    (trim ws).length ≤ n := by
  rw [← value_trim] at h
  rcases List.eq_nil_or_concat (trim ws) with hnil | ⟨init, top, htop⟩
  · rw [hnil]
    exact Nat.zero_le n
  · rw [List.concat_eq_append] at htop
    have hpos := toNat_top_pos htop
    -- The top word is not zero, so the number is not smaller than its weight.
    have hle : 2 ^ (32 * init.length) ≤ value (trim ws) := by
      have hweight := Nat.le_mul_of_pos_right (2 ^ (32 * init.length)) hpos
      rw [htop, value_append, value, value, Nat.mul_zero, Nat.add_zero]
      omega
    have hlt := (Nat.pow_lt_pow_iff_right (by decide : 1 < 2)).1 (Nat.lt_of_le_of_lt hle h)
    rw [htop, List.length_append, List.length_singleton]
    omega

theorem size_add_two_pow_mul {a b n : Nat} (ha : a < 2 ^ n) (hb : b ≠ 0) :
    Nat.size (a + 2 ^ n * b) = n + Nat.size b := by
  have hpos : 0 < Nat.size b := Nat.size_pos.2 (Nat.pos_of_ne_zero hb)
  apply Nat.le_antisymm
  · apply Nat.size_le.2
    have hlt : b + 1 ≤ 2 ^ Nat.size b := Nat.lt_size_self b
    calc
      a + 2 ^ n * b < 2 ^ n * (b + 1) := by
        rw [Nat.mul_succ]
        omega
      _ ≤ 2 ^ (n + Nat.size b) := by
        rw [Nat.pow_add]
        exact Nat.mul_le_mul_left _ hlt
  · have hge : 2 ^ (Nat.size b - 1) ≤ b := Nat.lt_size.1 (by omega)
    have hlt : n + (Nat.size b - 1) < Nat.size (a + 2 ^ n * b) := by
      apply Nat.lt_size.2
      rw [Nat.pow_add]
      exact Nat.le_add_left_of_le (Nat.mul_le_mul_left _ hge)
    omega

theorem log2_succ_eq_size {n : Nat} (h : n ≠ 0) : Nat.log2 n + 1 = Nat.size n := by
  apply Nat.le_antisymm
  · exact Nat.lt_size.2 (Nat.log2_self_le h)
  · exact Nat.size_le.2 Nat.lt_log2_self

/-- The top word and the words below it give the number of bits. -/
theorem bitLength_eq_size (ws : List UInt32) : bitLength ws = Nat.size (value ws) := by
  rw [bitLength, ← value_trim]
  rcases List.eq_nil_or_concat (trim ws) with hnil | ⟨init, top, htop⟩
  · rw [hnil]
    exact Nat.size_zero.symm
  · rw [List.concat_eq_append] at htop
    have hpos := toNat_top_pos htop
    rw [htop, List.getLast?_concat, value_append, size_add_two_pow_mul (value_lt init)]
    · simp only [value, List.length_append, List.length_singleton, Nat.add_sub_cancel,
        Nat.mul_zero, Nat.add_zero]
      rw [log2_succ_eq_size (Nat.ne_of_gt hpos)]
    · simp only [value]
      omega

theorem testBit_eq (ws : List UInt32) (i : Nat) : testBit ws i = (value ws).testBit i := by
  induction ws generalizing i with
  | nil => simp [testBit, value]
  | cons w ws ih =>
    have hw : w.toNat < 2 ^ 32 := w.toNat_lt
    have hsplit : (value (w :: ws)).testBit i =
        if i < 32 then w.toNat.testBit i else (value ws).testBit (i - 32) := by
      rw [value, Nat.add_comm]
      exact Nat.testBit_two_pow_mul_add _ hw i
    rw [hsplit]
    by_cases hi : i < 32
    · rw [if_pos hi, testBit, Nat.div_eq_of_lt hi, Nat.mod_eq_of_lt hi]
      rfl
    · have hdiv : i / 32 = (i - 32) / 32 + 1 := by omega
      have hmod : i % 32 = (i - 32) % 32 := by omega
      rw [if_neg hi, ← ih, testBit, testBit, hdiv, hmod, List.getD_cons_succ]

end TlsClient.Words
