import TlsClient.Natural.Modular
import TlsClient.Proofs.Natural.Division
import TlsClient.Proofs.Natural.Octets

namespace TlsClient.Natural

theorem isZero_iff (a : Natural) : a.isZero = true ↔ a.value = 0 := by
  rw [isZero, List.isEmpty_iff]
  constructor
  · intro h
    rw [value, h]
    rfl
  · intro h
    have hall := Words.all_of_value_eq_zero h
    rcases List.eq_nil_or_concat a.words with hnil | ⟨init, top, htop⟩
    · exact hnil
    · rw [List.concat_eq_append] at htop
      have hzero : top = 0 := hall top (by simp [htop])
      exact absurd (by rw [htop, List.getLast?_concat, hzero]) a.top_ne_zero

theorem less_iff (a b : Natural) : a.less b = true ↔ a.value < b.value := by
  rw [value, value, ← Words.less_eq_true_iff, less, compare]
  split
  · simp_all
  · split <;> simp_all

section
variable {m : Natural}

/-- Whatever is smaller than a modulus is as narrow as it. -/
theorem ofWords_of_lt {ws : List UInt32} (h : Words.value ws < m.value) :
    ∃ a, ofWords ws = .ok a ∧ a.value = Words.value ws :=
  ofWords_eq_ok (Nat.lt_trans h m.value_lt)

theorem isZero_eq_false (hm : m.value ≠ 0) : m.isZero = false :=
  Bool.eq_false_iff.2 fun h => hm ((isZero_iff m).1 h)

/-- There is a remainder by every number but zero. -/
theorem rem_eq_ok (hm : m.value ≠ 0) (a : Natural) :
    ∃ r, a.rem m = .ok r ∧ r.value = a.value % m.value := by
  have hvalue : Words.value (Words.rem a.words m.words) = a.value % m.value := Words.value_rem hm
  have hlt : Words.value (Words.rem a.words m.words) < m.value := by
    rw [hvalue]
    exact Nat.mod_lt _ (Nat.pos_of_ne_zero hm)
  obtain ⟨r, hr, hv⟩ := ofWords_of_lt hlt
  refine ⟨r, ?_, hv.trans hvalue⟩
  rw [rem, isZero_eq_false hm]
  exact hr

/-- The product is not reduced before it is complete, and it is never too long for that. -/
theorem modMul_eq_ok (hm : m.value ≠ 0) (a b : Natural) :
    ∃ c, a.modMul b m = .ok c ∧ c.value = a.value * b.value % m.value := by
  have hvalue : Words.value (Words.rem (Words.mul a.words b.words) m.words)
      = a.value * b.value % m.value := by
    rw [Words.value_rem hm, Words.value_mul]
    rfl
  have hlt : Words.value (Words.rem (Words.mul a.words b.words) m.words) < m.value := by
    rw [hvalue]
    exact Nat.mod_lt _ (Nat.pos_of_ne_zero hm)
  obtain ⟨c, hc, hv⟩ := ofWords_of_lt hlt
  refine ⟨c, ?_, hv.trans hvalue⟩
  rw [modMul, isZero_eq_false hm]
  exact hc

end

def numberOf : List Bool → Nat
  | [] => 0
  | bit :: bits => bit.toNat + 2 * numberOf bits

theorem numberOf_testBits {v n : Nat} (h : v < 2 ^ n) :
    numberOf ((List.range n).map v.testBit) = v := by
  induction n generalizing v with
  | zero =>
    rw [Nat.pow_zero] at h
    exact (Nat.lt_one_iff.1 h).symm
  | succ n ih =>
    have hhalf : v / 2 < 2 ^ n := by
      rw [Nat.pow_succ] at h
      omega
    have hrest : (List.range n).map (fun i => v.testBit (i + 1))
        = (List.range n).map (v / 2).testBit := by
      apply List.map_congr_left
      intro i _
      exact Nat.testBit_succ v i
    have hlow : (v.testBit 0).toNat = v % 2 := by
      rw [Nat.testBit_zero]
      rcases Nat.mod_two_eq_zero_or_one v with h0 | h1
      · rw [h0]; rfl
      · rw [h1]; rfl
    rw [List.range_succ_eq_map, List.map_cons, List.map_map, numberOf, hlow]
    change v % 2 + 2 * numberOf ((List.range n).map fun i => v.testBit (i + 1)) = v
    rw [hrest, ih hhalf]
    omega

/-- The binary digits of a number stand for it. -/
theorem numberOf_bits (a : Natural) : numberOf a.bits = a.value := by
  have hsize : a.bitLength = Nat.size a.value := Words.bitLength_eq_size a.words
  have hbits : a.bits = (List.range a.bitLength).map a.value.testBit := by
    apply List.map_congr_left
    intro i _
    exact Words.testBit_eq a.words i
  rw [hbits, hsize]
  exact numberOf_testBits (Nat.lt_size_self _)

/-- Square and multiply keeps the product of what was multiplied and the power still to come. -/
theorem powBits_eq_ok {m : Natural} (hm : m.value ≠ 0) (bits : List Bool) (acc base : Natural)
    (hacc : acc.value < m.value) :
    ∃ c, powBits m bits acc base = .ok c ∧
      c.value = acc.value * base.value ^ numberOf bits % m.value := by
  induction bits generalizing acc base with
  | nil =>
    refine ⟨acc, rfl, ?_⟩
    rw [numberOf, Nat.pow_zero, Nat.mul_one, Nat.mod_eq_of_lt hacc]
  | cons bit bits ih =>
    obtain ⟨square, hsquare, hvsquare⟩ := modMul_eq_ok hm base base
    cases bit with
    | false =>
      obtain ⟨c, hc, hv⟩ := ih acc square hacc
      refine ⟨c, ?_, ?_⟩
      · change (base.modMul base m >>= fun base => powBits m bits acc base) = .ok c
        rw [hsquare]
        exact hc
      · have hpow : base.value ^ (2 * numberOf bits) = (base.value * base.value) ^ numberOf bits := by
          rw [Nat.pow_mul, Nat.pow_two]
        rw [hv, hvsquare, numberOf, Bool.toNat_false, Nat.zero_add, hpow, Nat.mul_mod,
          ← Nat.pow_mod, ← Nat.mul_mod]
    | true =>
      obtain ⟨product, hproduct, hvproduct⟩ := modMul_eq_ok hm acc base
      have hlt : product.value < m.value := by
        rw [hvproduct]
        exact Nat.mod_lt _ (Nat.pos_of_ne_zero hm)
      obtain ⟨c, hc, hv⟩ := ih product square hlt
      refine ⟨c, ?_, ?_⟩
      · change (acc.modMul base m >>= fun acc => base.modMul base m >>= fun base =>
          powBits m bits acc base) = .ok c
        rw [hproduct]
        change (base.modMul base m >>= fun base => powBits m bits product base) = .ok c
        rw [hsquare]
        exact hc
      · have hpow : acc.value * base.value ^ (1 + 2 * numberOf bits)
            = acc.value * base.value * (base.value * base.value) ^ numberOf bits := by
          rw [Nat.pow_add, Nat.pow_one, Nat.pow_mul, Nat.pow_two, Nat.mul_assoc]
        rw [hv, hvproduct, hvsquare, numberOf, Bool.toNat_true, hpow, Nat.mul_mod,
          Nat.mod_mod, ← Nat.pow_mod, ← Nat.mul_mod]

/-- There is a power modulo every number but zero, and it is the right one. -/
theorem modPow_eq_ok {m : Natural} (hm : m.value ≠ 0) (a e : Natural) :
    ∃ c, a.modPow e m = .ok c ∧ c.value = a.value ^ e.value % m.value := by
  obtain ⟨acc, hacc, hvacc⟩ := rem_eq_ok hm one
  obtain ⟨base, hbase, hvbase⟩ := rem_eq_ok hm a
  have hlt : acc.value < m.value := by
    rw [hvacc]
    exact Nat.mod_lt _ (Nat.pos_of_ne_zero hm)
  obtain ⟨c, hc, hv⟩ := powBits_eq_ok hm e.bits acc base hlt
  refine ⟨c, ?_, ?_⟩
  · change (one.rem m >>= fun acc => a.rem m >>= fun base => powBits m e.bits acc base) = .ok c
    rw [hacc]
    change (a.rem m >>= fun base => powBits m e.bits acc base) = .ok c
    rw [hbase]
    exact hc
  · have hone : one.value = 1 := rfl
    rw [hv, hvacc, hvbase, numberOf_bits, hone, Nat.mul_mod, Nat.mod_mod, ← Nat.pow_mod,
      ← Nat.mul_mod, Nat.one_mul]

/-- Modulo zero nothing is computed, not even for the exponent zero. -/
theorem modPow_of_zero {m : Natural} (hm : m.value = 0) (a e : Natural) :
    a.modPow e m = .error .divisionByZero := by
  have hrem : one.rem m = .error .divisionByZero := by
    rw [rem, (isZero_iff m).2 hm]
    rfl
  change (one.rem m >>= fun acc => a.rem m >>= fun base => powBits m e.bits acc base) = _
  rw [hrem]
  rfl

/-- A power modulo `m` is that of the natural numbers, however wide the base and the exponent are, and
there is none for a zero modulus alone. -/
theorem modPow_exact (a e m : Natural) :
    match a.modPow e m with
    | .ok c => m.value ≠ 0 ∧ c.value = a.value ^ e.value % m.value
    | .error fault => m.value = 0 ∧ fault = .divisionByZero := by
  by_cases hm : m.value = 0
  · rw [modPow_of_zero hm]
    exact ⟨hm, rfl⟩
  · obtain ⟨c, hc, hvalue⟩ := modPow_eq_ok hm a e
    rw [hc]
    exact ⟨hm, hvalue⟩

end TlsClient.Natural
