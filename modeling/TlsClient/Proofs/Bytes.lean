import Mathlib.Algebra.Group.Nat.Defs
import Mathlib.Data.List.GetD
import Mathlib.Data.List.Induction
import TlsClient.Bytes

namespace TlsClient.Bytes

/-- Writing drops what does not fit, and reading gives the rest. -/
theorem toNat_ofNat (len n : Nat) : toNat (ofNat len n) = n % 256 ^ len := by
  induction len generalizing n with
  | zero => simp [ofNat, Nat.mod_one]
  | succ len ih =>
    -- The last byte is the lowest digit and the others are the rest of the number.
    have hb : (UInt8.ofNat n).toNat = n % 256 := UInt8.toNat_ofNat'
    rw [ofNat, toNat_append_singleton, ih, hb, Nat.pow_succ', Nat.mod_mul, Nat.add_comm]

theorem toNat_lt (bs : Bytes) : toNat bs < 256 ^ bs.length := by
  have h := toNat_ofNat bs.length (toNat bs)
  -- Writing the number and reading it back takes it modulo the bound.
  rw [ofNat_toNat] at h
  rw [h]
  exact Nat.mod_lt _ (Nat.pow_pos (by decide))

theorem toNat_lt_of_length {bs : Bytes} {n : Nat} (h : bs.length = n) : toNat bs < 256 ^ n :=
  h ▸ toNat_lt bs

theorem ofNat_toNat_of_length {bs : Bytes} {n : Nat} (h : bs.length = n) :
    ofNat n (toNat bs) = bs :=
  h ▸ ofNat_toNat bs

/-- Digits beyond those that are written make no difference. -/
theorem ofNat_mod (len n : Nat) : ofNat len (n % 256 ^ len) = ofNat len n := by
  rw [← toNat_ofNat]
  exact ofNat_toNat_of_length (length_ofNat len n)

/-- A byte string is the only one of its length with its number. -/
theorem eq_ofNat {bs : Bytes} {len n : Nat} (hlength : bs.length = len) (hvalue : toNat bs = n) :
    bs = ofNat len n := by
  rw [← hlength, ← hvalue]
  exact (ofNat_toNat bs).symm

/-- Strings of one length are told apart by their numbers. -/
theorem toNat_injective {a b : Bytes} (hlength : a.length = b.length) (h : toNat a = toNat b) :
    a = b := by
  rw [← ofNat_toNat b, ← h]
  exact eq_ofNat hlength rfl

/-- The bytes in front weigh as much more as there are bytes behind them. -/
theorem toNat_append (a b : Bytes) : toNat (a ++ b) = 256 ^ b.length * toNat a + toNat b := by
  have hfold (n : Nat) :
      b.foldl (fun n b => 256 * n + b.toNat) n = 256 ^ b.length * n + toNat b := by
    rw [toNat]
    induction b generalizing n with
    | nil => simp
    | cons x xs ih =>
      rw [List.foldl_cons, List.foldl_cons, ih, ih (256 * 0 + x.toNat), List.length_cons,
        Nat.pow_succ, Nat.mul_zero, Nat.zero_add, Nat.mul_add, Nat.mul_assoc, Nat.add_assoc]
  have happend : toNat (a ++ b) = b.foldl (fun n b => 256 * n + b.toNat) (toNat a) :=
    List.foldl_append
  rw [happend, hfold]

theorem toNat_replicate_zero (n : Nat) : toNat (List.replicate n 0) = 0 := by
  induction n with
  | zero => rfl
  | succ n ih =>
    rw [List.replicate_succ', toNat_append_singleton, ih]
    rfl

/-- What is written of one item is no longer than what is written of all. -/
theorem length_le_flatMap {α : Type} {f : α → Bytes} {a : α} {as : List α} (h : a ∈ as) :
    (f a).length ≤ (as.flatMap f).length :=
  (List.sublist_flatten_of_mem (List.mem_map_of_mem h)).length_le

/-- The first byte of a number is its highest digit. -/
theorem ofNat_succ_eq_cons (len n : Nat) :
    ofNat (len + 1) n = UInt8.ofNat (n / 256 ^ len) :: ofNat len n := by
  induction len generalizing n with
  | zero => rw [Nat.pow_zero, Nat.div_one]; rfl
  | succ len ih =>
    rw [ofNat, ih, Nat.div_div_eq_div_mul, ← Nat.pow_succ', List.cons_append]
    rfl

/-- Numbers that fit are told apart by their bytes. -/
theorem ofNat_injective {len m n : Nat} (hm : m < 256 ^ len) (hn : n < 256 ^ len)
    (h : ofNat len m = ofNat len n) : m = n := by
  have hread := congrArg toNat h
  rwa [toNat_ofNat, toNat_ofNat, Nat.mod_eq_of_lt hm, Nat.mod_eq_of_lt hn] at hread

/-- The bits of a number are those of its bytes, the last byte being the lowest. -/
theorem testBit_toNat (bs : Bytes) (j : Nat) (h : j < 8 * bs.length) :
    (toNat bs).testBit j = (bs.getD (bs.length - 1 - j / 8) 0).toNat.testBit (j % 8) := by
  induction bs using List.reverseRecOn generalizing j with
  | nil => simp at h
  | append_singleton bs b ih =>
    rw [List.length_append, List.length_singleton] at h ⊢
    have hb : b.toNat < 2 ^ 8 := b.toNat_lt
    have hvalue : toNat (bs ++ [b]) = 2 ^ 8 * toNat bs + b.toNat := toNat_append_singleton bs b
    rw [hvalue, Nat.testBit_two_pow_mul_add _ hb]
    by_cases hj : j < 8
    · have hlast : bs.length + 1 - 1 - j / 8 = bs.length := by omega
      rw [if_pos hj, hlast, List.getD_append_right _ _ _ _ (Nat.le_refl _), Nat.sub_self,
        Nat.mod_eq_of_lt hj]
      rfl
    · have hplace : bs.length + 1 - 1 - j / 8 = bs.length - 1 - (j - 8) / 8 := by omega
      have hrest : (j - 8) % 8 = j % 8 := by omega
      rw [if_neg hj, ih (j - 8) (by omega), hplace, List.getD_append _ _ _ _ (by omega), hrest]

theorem chunks_of_length_le {k : Nat} {bs : Bytes} (hne : bs ≠ []) (h : bs.length ≤ k) :
    chunks k bs = [bs] := by
  have hpos : bs.length ≠ 0 := by simpa using hne
  rw [chunks_of_ne_nil (by omega) hne, List.take_of_length_le h, List.drop_of_length_le h,
    chunks_nil]

/-- Taking one piece after the other off a string ends with the empty one. -/
theorem chunks_induction {k : Nat} (hk : k ≠ 0) {P : Bytes → Prop} (nil : P [])
    (step : ∀ bs, bs ≠ [] → P (bs.drop k) → P bs) (bs : Bytes) : P bs := by
  induction bs using chunks.induct k with
  | case1 bs h =>
    rcases h with h | rfl
    · exact absurd h hk
    · exact nil
  | case2 bs h ih => exact step bs (fun hbs => h (.inr hbs)) ih

theorem dvd_length_drop {k : Nat} {bs : Bytes} (h : k ∣ bs.length) : k ∣ (bs.drop k).length := by
  rw [List.length_drop]
  exact Nat.dvd_sub h (Nat.dvd_refl k)

/-- Pieces end at a piece boundary, so a string cut there is cut into the same pieces. -/
theorem chunks_append {k : Nat} (hk : k ≠ 0) (a b : Bytes) (h : k ∣ a.length) :
    chunks k (a ++ b) = chunks k a ++ chunks k b := by
  induction a using chunks_induction hk with
  | nil => simp [chunks_nil]
  | step a ha ih =>
    -- The first piece lies within `a`, and so do all that come after it.
    have hle : k ≤ a.length := Nat.le_of_dvd (List.length_pos_iff.2 ha) h
    rw [chunks_of_ne_nil hk (by simp [ha]), chunks_of_ne_nil hk ha,
      List.take_append_of_le_length hle, List.drop_append_of_le_length hle,
      ih (dvd_length_drop h), List.cons_append]

/-- Nothing is lost or added by cutting. -/
theorem flatten_chunks {k : Nat} (hk : k ≠ 0) (bs : Bytes) : (chunks k bs).flatten = bs := by
  induction bs using chunks_induction hk with
  | nil => rw [chunks_nil, List.flatten_nil]
  | step bs h ih => rw [chunks_of_ne_nil hk h, List.flatten_cons, ih, List.take_append_drop]

theorem length_of_mem_chunks {k : Nat} (hk : k ≠ 0) {bs piece : Bytes} (hdvd : k ∣ bs.length)
    (h : piece ∈ chunks k bs) : piece.length = k := by
  induction bs using chunks_induction hk with
  | nil => simp [chunks_nil] at h
  | step bs hbs ih =>
    have hle : k ≤ bs.length := Nat.le_of_dvd (List.length_pos_iff.2 hbs) hdvd
    rw [chunks_of_ne_nil hk hbs, List.mem_cons] at h
    rcases h with rfl | h
    · rw [List.length_take, Nat.min_eq_left hle]
    · exact ih (dvd_length_drop hdvd) h

theorem length_chunks {k : Nat} (hk : k ≠ 0) (bs : Bytes) :
    (chunks k bs).length = (bs.length + (k - 1)) / k := by
  induction bs using chunks_induction hk with
  | nil =>
    have hlt : k - 1 < k := by omega
    simp [chunks_nil, Nat.div_eq_of_lt hlt]
  | step bs h ih =>
    have hpos := List.length_pos_iff.2 h
    rw [chunks_of_ne_nil hk h, List.length_cons, ih, List.length_drop]
    -- A short piece is the last one.
    by_cases hle : k ≤ bs.length
    · have hsum : bs.length + (k - 1) = bs.length - k + (k - 1) + k := by omega
      rw [hsum, Nat.add_div_right _ (Nat.pos_of_ne_zero hk)]
    · have hzero : bs.length - k = 0 := by omega
      have hfirst : (0 + (k - 1)) / k = 0 := Nat.div_eq_of_lt (by omega)
      have hsecond : (bs.length + (k - 1)) / k = 1 :=
        Nat.div_eq_of_lt_le (by omega) (by omega)
      rw [hzero, hfirst, hsecond]

/-- Of whole pieces only, piece `i` is what is found `k * i` bytes from the start. -/
theorem chunks_eq_map_range {k : Nat} (hk : k ≠ 0) {bs : Bytes} (hdvd : k ∣ bs.length) :
    chunks k bs = (List.range (bs.length / k)).map fun i => (bs.drop (k * i)).take k := by
  induction bs using chunks_induction hk with
  | nil => rw [chunks_nil, List.length_nil, Nat.zero_div, List.range_zero, List.map_nil]
  | step bs h ih =>
    have hle : k ≤ bs.length := Nat.le_of_dvd (List.length_pos_iff.2 h) hdvd
    have hcount : bs.length / k = (bs.drop k).length / k + 1 := by
      rw [List.length_drop, ← Nat.add_div_right _ (Nat.pos_of_ne_zero hk), Nat.sub_add_cancel hle]
    rw [chunks_of_ne_nil hk h, ih (dvd_length_drop hdvd), hcount, List.range_succ_eq_map,
      List.map_cons, List.map_map, Nat.mul_zero, List.drop_zero]
    refine congrArg (List.cons _) (List.map_congr_left fun i _ => ?_)
    rw [List.drop_drop, Function.comp_apply, Nat.mul_succ, Nat.add_comm]

@[simp] theorem length_xor (a b : Bytes) : (xor a b).length = min a.length b.length := by
  simp [xor]

/-- A keystream is taken off as it was put on. -/
theorem xor_xor_cancel {a b : Bytes} (h : a.length ≤ b.length) : xor (xor a b) b = a := by
  induction a generalizing b with
  | nil => rfl
  | cons x xs ih =>
    cases b with
    | nil => simp at h
    | cons y ys =>
      have hxs : xs.length ≤ ys.length := by simpa using h
      -- A byte that is added twice is gone.
      simp only [xor, List.zipWith_cons_cons, UInt8.xor_assoc, UInt8.xor_self, UInt8.xor_zero,
        List.cons.injEq, true_and]
      exact ih hxs

theorem foldl_or_eq_zero (bs : Bytes) (b : UInt8) :
    bs.foldl (· ||| ·) b = 0 ↔ b = 0 ∧ ∀ c ∈ bs, c = 0 := by
  induction bs generalizing b with
  | nil => simp
  | cons c cs ih =>
    rw [List.foldl_cons, ih, UInt8.or_eq_zero_iff]
    simp [and_assoc]

/-- Two strings of one length have no difference if and only if they are equal. -/
theorem xor_eq_zero (a b : Bytes) (h : a.length = b.length) :
    (∀ c ∈ xor a b, c = 0) ↔ a = b := by
  induction a generalizing b with
  | nil => simp [xor, List.length_eq_zero_iff.1 h.symm]
  | cons x xs ih =>
    cases b with
    | nil => simp at h
    | cons y ys =>
      have hxs := ih ys (by simpa using h)
      rw [xor] at hxs
      -- Two bytes add up to zero only if they are the same.
      rw [xor, List.zipWith_cons_cons, List.forall_mem_cons, hxs, UInt8.xor_eq_zero_iff,
        List.cons.injEq]

/-- A comparison that never stops early finds what one that does would find. -/
theorem agree_iff (a b : Bytes) : agree a b = true ↔ a = b := by
  constructor
  · intro h
    simp only [agree, Bool.and_eq_true, beq_iff_eq, foldl_or_eq_zero] at h
    obtain ⟨hlength, -, hzero⟩ := h
    exact (xor_eq_zero a b hlength).1 hzero
  · intro hq
    subst hq
    have hzero := (xor_eq_zero a a rfl).2 rfl
    simp only [agree, Bool.and_eq_true, beq_iff_eq, foldl_or_eq_zero]
    exact ⟨trivial, trivial, hzero⟩

end TlsClient.Bytes
