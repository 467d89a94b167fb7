import Mathlib.Analysis.SpecialFunctions.Pow.Real
import Mathlib.Data.Fin.VecNotation
import Mathlib.Data.Nat.Nth
import TlsClient.Proofs.Bytes
import TlsClient.Sha256.Compression

/-!
The compression function of SHA-256 as FIPS 180-4 defines it: its constants are digits of roots of primes,
the message schedule is a recurrence, and 64 rounds transform eight words. What is computed is that
function: the tables hold these digits (`map_roundConstants`, `state_initial`), a window of sixteen words
is enough for the schedule (`map_schedule`), and so both take in a block alike (`state_compress`).
-/

namespace TlsClient.Sha256

/-! ### The standard -/

namespace Standard

abbrev Word := BitVec 32

abbrev State := Fin 8 → Word

/-- The first 32 bits of the fractional part of a number. -/
noncomputable def fraction (x : ℝ) : Word :=
  BitVec.ofInt 32 ⌊2 ^ 32 * Int.fract x⌋

noncomputable def constant (t : ℕ) : Word :=
  fraction ((Nat.nth Nat.Prime t : ℝ) ^ ((3 : ℕ) : ℝ)⁻¹)

noncomputable def initial : State :=
  fun i => fraction ((Nat.nth Nat.Prime i : ℝ) ^ ((2 : ℕ) : ℝ)⁻¹)

def ch (x y z : Word) : Word :=
  (x &&& y) ^^^ (~~~x &&& z)

def maj (x y z : Word) : Word :=
  (x &&& y) ^^^ (x &&& z) ^^^ (y &&& z)

def bigSigma0 (x : Word) : Word :=
  x.rotateRight 2 ^^^ x.rotateRight 13 ^^^ x.rotateRight 22

def bigSigma1 (x : Word) : Word :=
  x.rotateRight 6 ^^^ x.rotateRight 11 ^^^ x.rotateRight 25

def smallSigma0 (x : Word) : Word :=
  x.rotateRight 7 ^^^ x.rotateRight 18 ^^^ (x >>> 3)

def smallSigma1 (x : Word) : Word :=
  x.rotateRight 17 ^^^ x.rotateRight 19 ^^^ (x >>> 10)

def word (block : Bytes) (t : ℕ) : Word :=
  if t < 16 then BitVec.ofNat 32 (Bytes.toNat ((block.drop (4 * t)).take 4))
  else smallSigma1 (word block (t - 2)) + word block (t - 7) + smallSigma0 (word block (t - 15)) +
    word block (t - 16)
termination_by t

def round (k w : Word) (s : State) : State :=
  let t1 := s 7 + bigSigma1 (s 4) + ch (s 4) (s 5) (s 6) + k + w
  let t2 := bigSigma0 (s 0) + maj (s 0) (s 1) (s 2)
  ![t1 + t2, s 0, s 1, s 2, s 3 + t1, s 4, s 5, s 6]

noncomputable def compress (hash : State) (block : Bytes) : State :=
  (List.range 64).foldl (fun s t => round (constant t) (word block t) s) hash + hash

end Standard

open Standard

/-! ### Constants -/

/-- What passes a test among the first numbers is counted as the sequence of all that pass it. -/
theorem getElem_filter_range (p : ℕ → Prop) [DecidablePred p] (n : ℕ) {t : ℕ}
    (h : t < ((List.range n).filter p).length) : ((List.range n).filter p)[t] = Nat.nth p t := by
  induction n with
  | zero => simp at h
  | succ n ih =>
    have hlength : ((List.range n).filter p).length = Nat.count p n := by
      rw [← List.countP_eq_length_filter, Nat.count]
    simp only [List.range_succ, List.filter_append] at h ⊢
    by_cases ht : t < ((List.range n).filter p).length
    · rw [List.getElem_append_left ht, ih ht]
    · -- Only the last number can be the one that is looked for, and it comes after all others.
      rw [List.length_append] at h
      have hpn : p n := by
        by_contra hpn
        simp [hpn] at h
        omega
      have hone : t = Nat.count p n := by
        simp [hpn] at h
        omega
      rw [List.getElem_append_right (Nat.le_of_not_lt ht)]
      simp [hpn, hone, Nat.nth_count hpn]

/-- A root, scaled by `2 ^ 32` and rounded down, ends with the first 32 bits behind the point. -/
theorem fraction_root {p r c : ℕ} (hr : r ≠ 0) (hle : c ^ r ≤ p * (2 ^ 32) ^ r)
    (hlt : p * (2 ^ 32) ^ r < (c + 1) ^ r) :
    fraction ((p : ℝ) ^ (r : ℝ)⁻¹) = BitVec.ofNat 32 c := by
  generalize hx : (p : ℝ) ^ (r : ℝ)⁻¹ = x
  have hpos : 0 ≤ x := hx ▸ Real.rpow_nonneg (Nat.cast_nonneg p) _
  -- Scaled up, the root is a root of the scaled number, so that its floor is bounded by powers.
  have hpow : (2 ^ 32 * x) ^ r = ((p * (2 ^ 32) ^ r : ℕ) : ℝ) := by
    rw [mul_pow, ← hx, Real.rpow_inv_natCast_pow (Nat.cast_nonneg p) hr]
    push_cast
    ring
  have hfloor : ⌊2 ^ 32 * x⌋ = (c : ℤ) := by
    have hscaled : 0 ≤ 2 ^ 32 * x := by positivity
    rw [Int.floor_eq_iff]
    constructor
    · refine le_of_pow_le_pow_left₀ hr hscaled ?_
      rw [hpow]
      exact_mod_cast hle
    · refine lt_of_pow_lt_pow_left₀ r (by positivity) ?_
      rw [hpow]
      exact_mod_cast hlt
  -- Without the integer part it is smaller by a multiple of `2 ^ 32`, which the word does not show.
  have hfract : ⌊2 ^ 32 * Int.fract x⌋ = (c : ℤ) - 2 ^ 32 * ⌊x⌋ := by
    have hsub : 2 ^ 32 * Int.fract x = 2 ^ 32 * x - ((2 ^ 32 * ⌊x⌋ : ℤ) : ℝ) := by
      rw [← Int.self_sub_floor]
      push_cast
      ring
    rw [hsub, Int.floor_sub_intCast, hfloor]
  rw [fraction, hfract]
  apply BitVec.eq_of_toNat_eq
  rw [BitVec.toNat_ofInt, BitVec.toNat_ofNat]
  push_cast
  omega

def primes : List ℕ :=
  (List.range 312).filter Nat.Prime

/-- Whether a word is what `fraction_root` finds for a root of a small number. -/
def EndsRoot (r : ℕ) (entry : ℕ × UInt32) : Prop :=
  ∃ n < 7, (2 ^ 32 * n + entry.2.toNat) ^ r ≤ entry.1 * (2 ^ 32) ^ r ∧
    entry.1 * (2 ^ 32) ^ r < (2 ^ 32 * n + entry.2.toNat + 1) ^ r

instance (r : ℕ) (entry : ℕ × UInt32) : Decidable (EndsRoot r entry) :=
  inferInstanceAs (Decidable (∃ n < 7, _))

/-- The end of a root in whole numbers determines the digits of its fraction. -/
theorem EndsRoot.fraction_eq {r t : ℕ} {w : UInt32} (hr : r ≠ 0)
    (h : EndsRoot r (Nat.nth Nat.Prime t, w)) :
    fraction ((Nat.nth Nat.Prime t : ℝ) ^ (r : ℝ)⁻¹) = w.toBitVec := by
  obtain ⟨n, -, hle, hlt⟩ := h
  rw [fraction_root (c := 2 ^ 32 * n + w.toNat) hr hle hlt]
  apply BitVec.eq_of_toNat_eq
  have hw := w.toNat_lt
  rw [BitVec.toNat_ofNat, UInt32.toNat_toBitVec]
  omega

/-- The entries of both tables stand beside the primes that they are made from. -/
theorem tables_endRoots : primes.length = 64 ∧ roundConstants.length = 64 ∧
    (∀ entry ∈ primes.zip roundConstants, EndsRoot 3 entry) ∧
    ∀ entry ∈ primes.zip Chain.initial.words, EndsRoot 2 entry := by
  decide +kernel

/-- What a table has at place `t` if all of it stands beside the primes. -/
theorem toBitVec_of_endsRoot {r : ℕ} (hr : r ≠ 0) {table : List UInt32}
    (h : ∀ entry ∈ primes.zip table, EndsRoot r entry) {t : ℕ} (hprimes : t < primes.length)
    (ht : t < table.length) :
    table[t].toBitVec = fraction ((Nat.nth Nat.Prime t : ℝ) ^ (r : ℝ)⁻¹) := by
  have hentry := h _ (List.mem_iff_getElem.2 ⟨t, by simp [hprimes, ht], List.getElem_zip⟩)
  have hprime : primes[t] = Nat.nth Nat.Prime t := getElem_filter_range _ _ _
  rw [hprime] at hentry
  exact (hentry.fraction_eq hr).symm

/-- The table of constants has the digits that the standard takes them from. -/
theorem map_roundConstants :
    roundConstants.map UInt32.toBitVec = (List.range 64).map Standard.constant := by
  obtain ⟨hprimes, hlength, htable, -⟩ := tables_endRoots
  apply List.ext_getElem
  · simp [hlength]
  · intro t ht _
    rw [List.length_map] at ht
    rw [List.getElem_map, List.getElem_map, List.getElem_range]
    exact toBitVec_of_endsRoot (by decide) htable (by omega) ht

/-! ### Words -/

theorem eq_map_of_map_toBitVec {ws : List UInt32} {f : ℕ → Word} {ts : List ℕ}
    (h : ws.map UInt32.toBitVec = ts.map f) : ws = ts.map fun t => ⟨f t⟩ := by
  have hid : UInt32.ofBitVec ∘ UInt32.toBitVec = id := rfl
  have hwords := congrArg (List.map UInt32.ofBitVec) h
  rwa [List.map_map, List.map_map, hid, List.map_id] at hwords

theorem toBitVec_rotate (w n : UInt32) (hpos : 0 < n.toNat) (hlt : n.toNat < 32) :
    (rotate w n).toBitVec = w.toBitVec.rotateRight n.toNat := by
  -- Shifts reduce their amount modulo 32; neither amount reaches it.
  have hright : (n.toBitVec % 32).toNat = n.toNat % 32 := rfl
  have hleft : ((32 - n).toBitVec % 32).toNat = 32 - n.toNat := by
    have hsub : (32 - n).toNat = 32 - n.toNat := UInt32.toNat_sub_of_le _ _ (by
      rw [UInt32.le_iff_toNat_le]
      exact hlt.le)
    change (32 - n).toNat % 32 = _
    rw [hsub]
    omega
  rw [rotate, UInt32.toBitVec_or, UInt32.toBitVec_shiftRight, UInt32.toBitVec_shiftLeft,
    BitVec.ushiftRight_eq', BitVec.shiftLeft_eq', hright, hleft, BitVec.rotateRight_def,
    Nat.mod_eq_of_lt hlt]

theorem toBitVec_smallSigma0 (w : UInt32) :
    (rotate w 7 ^^^ rotate w 18 ^^^ (w >>> 3)).toBitVec = smallSigma0 w.toBitVec := by
  simp [toBitVec_rotate, smallSigma0]

theorem toBitVec_smallSigma1 (w : UInt32) :
    (rotate w 17 ^^^ rotate w 19 ^^^ (w >>> 10)).toBitVec = smallSigma1 w.toBitVec := by
  simp [toBitVec_rotate, smallSigma1]

namespace Chain

def state (v : Chain) : Standard.State :=
  ![v.a.toBitVec, v.b.toBitVec, v.c.toBitVec, v.d.toBitVec, v.e.toBitVec, v.f.toBitVec,
    v.g.toBitVec, v.h.toBitVec]

/-- The first hash value has the digits that the standard takes it from. -/
theorem state_initial : Chain.initial.state = Standard.initial := by
  obtain ⟨hprimes, -, -, htable⟩ := tables_endRoots
  ext1 i
  have hread : Standard.initial i = _ :=
    (toBitVec_of_endsRoot (by decide) htable (t := i) (by omega) i.isLt).symm
  rw [hread]
  fin_cases i <;> rfl

theorem state_add (v w : Chain) : (v.add w).state = w.state + v.state := by
  ext1 i
  fin_cases i <;> exact BitVec.add_comm _ _

/-- One round is one round of the standard. -/
theorem state_round (v : Chain) (k w : UInt32) :
    (v.round (k + w)).state = Standard.round k.toBitVec w.toBitVec v.state := by
  ext1 i
  fin_cases i <;>
    simp [state, round, Standard.round, bigSigma0, bigSigma1, ch, maj, toBitVec_rotate,
      BitVec.add_assoc]

end Chain

/-! ### The schedule -/

theorem word_add_sixteen (block : Bytes) (t : ℕ) : word block (t + 16) =
    smallSigma1 (word block (t + 14)) + word block (t + 9) + smallSigma0 (word block (t + 1)) +
      word block t := by
  rw [word]
  simp

/-- A window of the schedule is continued by the next word of it. -/
theorem toBitVec_nextWord {block : Bytes} {t : ℕ} {window : List UInt32}
    (h : window.map UInt32.toBitVec = (List.range' t 16).map (word block)) :
    (nextWord window).toBitVec = word block (t + 16) := by
  have hread (i : ℕ) (hi : i < 16) : (window.getD i 0).toBitVec = word block (t + i) := by
    have hentry := congrArg (·.getD i 0) h
    simpa [List.getD_map, hi] using hentry
  dsimp only [nextWord]
  rw [UInt32.toBitVec_add, UInt32.toBitVec_add, UInt32.toBitVec_add, toBitVec_smallSigma0,
    toBitVec_smallSigma1, hread 0 (by decide), hread 1 (by decide), hread 9 (by decide),
    hread 14 (by decide), word_add_sixteen, Nat.add_zero]
  ac_rfl

/-- Each word of the schedule follows from the last sixteen. -/
theorem map_extend {block : Bytes} {t : ℕ} (n : ℕ) {window : List UInt32}
    (h : window.map UInt32.toBitVec = (List.range' t 16).map (word block)) :
    (extend n window).map UInt32.toBitVec = (List.range' t (16 + n)).map (word block) := by
  induction n generalizing t window with
  | zero => exact h
  | succ n ih =>
    cases window with
    | nil => simp at h
    | cons w ws =>
      -- The first word leaves the window for the schedule, and the next one comes in at the end.
      have hnext := toBitVec_nextWord h
      rw [List.range'_succ, List.map_cons, List.map_cons, List.cons.injEq] at h
      have hwindow : (ws ++ [nextWord (w :: ws)]).map UInt32.toBitVec =
          (List.range' (t + 1) 16).map (word block) := by
        rw [List.range'_1_concat, List.map_append, List.map_append, h.2, List.map_singleton,
          List.map_singleton, hnext]
      have hcount : 16 + (n + 1) = 16 + n + 1 := rfl
      rw [extend, List.headD_cons, List.tail_cons, List.map_cons, ih hwindow, hcount,
        List.range'_succ, List.map_cons, h.1]

theorem map_schedule {block : Bytes} (h : block.length = blockLength) :
    (schedule block).map UInt32.toBitVec = (List.range 64).map (word block) := by
  have hcount : block.length / 4 = 16 := by rw [h]; rfl
  have hblock : ((Bytes.chunks 4 block).map fun w => UInt32.ofNat w.toNat).map UInt32.toBitVec =
      (List.range' 0 16).map (word block) := by
    rw [Bytes.chunks_eq_map_range (by decide) (by rw [h]; decide), hcount, List.map_map,
      List.map_map, ← List.range_eq_range']
    refine List.map_congr_left fun t ht => ?_
    rw [word, if_pos (List.mem_range.1 ht)]
    rfl
  rw [schedule, map_extend 48 hblock, ← List.range_eq_range']

/-! ### The compression function -/

/-- Compression is that of the standard, for any chaining value and block. -/
theorem state_compress (v : Chain) {block : Bytes} (h : block.length = blockLength) :
    (v.compress block).state = Standard.compress v.state block := by
  have hsums : List.zipWith (· + ·) roundConstants (schedule block) =
      (List.range 64).map fun t => ⟨constant t⟩ + ⟨word block t⟩ := by
    rw [eq_map_of_map_toBitVec map_roundConstants, eq_map_of_map_toBitVec (map_schedule h),
      List.zipWith_map, List.zipWith_self]
  rw [Chain.compress, Chain.state_add, hsums, List.foldl_map, Standard.compress]
  exact congrArg (· + v.state) (List.foldl_hom Chain.state fun s t => (s.state_round _ _).symm).symm

end TlsClient.Sha256
