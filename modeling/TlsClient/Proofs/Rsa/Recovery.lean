import TlsClient.Proofs.Natural.Modular
import TlsClient.Proofs.Rsa.Encryption
import TlsClient.Random.Scripted
import TlsClient.Rsa.PrivateKey

namespace TlsClient

namespace PublicKey

variable (key : PublicKey)

theorem modulus_ne_zero : key.modulus.value ≠ 0 := by
  have hless := (Natural.less_iff _ _).1 key.exponent_less
  omega

theorem bits_eq_size : key.bits = Nat.size key.modulus.value :=
  Words.bitLength_eq_size key.modulus.words

/-- The modulus has no more bytes than a `Natural` may have. -/
theorem byteLength_le : key.byteLength ≤ 4 * Natural.capacity := by
  have hle : Nat.size key.modulus.value ≤ 32 * Natural.capacity := Nat.size_le.2 key.modulus.value_lt
  rw [byteLength, bits_eq_size]
  omega

/-- A block that starts with a zero byte is a smaller number than the modulus. -/
theorem toNat_cons_zero_lt {rest : Bytes} (h : rest.length + 1 = key.byteLength) :
    Bytes.toNat (0 :: rest) < key.modulus.value := by
  have hpos := Nat.size_pos.2 (Nat.pos_of_ne_zero key.modulus_ne_zero)
  rw [byteLength, bits_eq_size] at h
  calc
    Bytes.toNat (0 :: rest) = Bytes.toNat rest := rfl
    _ < 256 ^ rest.length := Bytes.toNat_lt rest
    _ = 2 ^ (8 * rest.length) := by rw [Nat.pow_mul]
    _ ≤ 2 ^ (Nat.size key.modulus.value - 1) := Nat.pow_le_pow_right (by decide) (by omega)
    _ ≤ key.modulus.value := Nat.lt_size.1 (by omega)

/-- A string as long as the modulus can always be raised, and the result is as long again. -/
theorem raise_eq_ok {bs : Bytes} (h : bs.length = key.byteLength) :
    key.raise bs = .ok (Bytes.ofNat key.byteLength
      (bs.toNat ^ key.exponent.value % key.modulus.value)) := by
  obtain ⟨x, hx, hvx⟩ := Natural.ofBytes_eq_ok (h.le.trans key.byteLength_le)
  obtain ⟨y, hy, hvy⟩ := Natural.modPow_eq_ok key.modulus_ne_zero x key.exponent
  have hlt : y.value < key.modulus.value := by
    rw [hvy]
    exact Nat.mod_lt _ (Nat.pos_of_ne_zero key.modulus_ne_zero)
  have hfits : y.byteLength ≤ key.byteLength := by
    have hsize : y.bitLength = Nat.size y.value := Words.bitLength_eq_size y.words
    have hle := Nat.size_le_size hlt.le
    rw [Natural.byteLength, byteLength, hsize, bits_eq_size]
    omega
  have hout := Natural.toBytes_eq_ok hfits
  rw [hvy, hvx] at hout
  change (Natural.ofBytes bs >>= fun x => x.modPow key.exponent key.modulus >>= fun y =>
    y.toBytes key.byteLength) = _
  rw [hx]
  change (x.modPow key.exponent key.modulus >>= fun y => y.toBytes key.byteLength) = _
  rw [hy]
  exact hout

/-- The result has as many bytes as the modulus, and it is the power. -/
theorem exists_raise {bs : Bytes} (h : bs.length = key.byteLength) :
    ∃ raised, key.raise bs = .ok raised ∧ raised.length = key.byteLength ∧
      raised.toNat = bs.toNat ^ key.exponent.value % key.modulus.value := by
  refine ⟨_, key.raise_eq_ok h, Bytes.length_ofNat _ _, ?_⟩
  have hpower := Nat.mod_lt (bs.toNat ^ key.exponent.value) (Nat.pos_of_ne_zero key.modulus_ne_zero)
  have hwide : key.modulus.value < 256 ^ key.byteLength := by
    calc
      key.modulus.value < 2 ^ Nat.size key.modulus.value := Nat.lt_size_self _
      _ ≤ 2 ^ (8 * key.byteLength) := by
        apply Nat.pow_le_pow_right (by decide)
        rw [byteLength, bits_eq_size]
        omega
      _ = 256 ^ key.byteLength := by rw [Nat.pow_mul]
  rw [Bytes.toNat_ofNat, Nat.mod_eq_of_lt (hpower.trans hwide)]

end PublicKey

namespace PrivateKey

/-- Squaring and multiplying gives the power modulo the modulus. -/
theorem powMod_eq (base exponent modulus : Nat) :
    powMod base exponent modulus = base ^ exponent % modulus := by
  induction exponent using Nat.strongRecOn generalizing base with
  | ind exponent ih =>
    rw [powMod]
    by_cases hzero : exponent = 0
    · rw [if_pos hzero, hzero, Nat.pow_zero]
    · have hhalf := ih (exponent / 2) (by omega) (base * base % modulus)
      rw [if_neg hzero, hhalf, ← Nat.pow_mod]
      by_cases hodd : exponent % 2 = 1
      · have hpow : base ^ exponent = base * (base * base) ^ (exponent / 2) := by
          have hexponent : exponent = 1 + 2 * (exponent / 2) := by omega
          conv_lhs => rw [hexponent, Nat.pow_add, Nat.pow_one, Nat.pow_mul, Nat.pow_two]
        rw [if_pos hodd, hpow, Nat.mul_mod_mod]
      · have hpow : base ^ exponent = (base * base) ^ (exponent / 2) := by
          have hexponent : exponent = 2 * (exponent / 2) := by omega
          conv_lhs => rw [hexponent, Nat.pow_mul, Nat.pow_two]
        rw [if_neg hodd, hpow]

/-- The private exponent undoes the public one. -/
structure Inverts (secret : PrivateKey) (key : PublicKey) : Prop where
  modulus : secret.modulus = key.modulus.value
  power : ∀ x < key.modulus.value,
    x ^ (key.exponent.value * secret.exponent) % key.modulus.value = x

/-- What was raised with the public exponent is recovered with the private one, byte for byte. -/
theorem Inverts.recover {secret : PrivateKey} {key : PublicKey} (h : secret.Inverts key)
    {bs : Bytes} (hlength : bs.length = key.byteLength) (hlt : bs.toNat < key.modulus.value) :
    ∃ encrypted, key.raise bs = .ok encrypted ∧ encrypted.length = key.byteLength ∧
      secret.recover encrypted = bs := by
  obtain ⟨encrypted, hraise, hencrypted, hvalue⟩ := key.exists_raise hlength
  refine ⟨encrypted, hraise, hencrypted, ?_⟩
  rw [PrivateKey.recover, powMod_eq, hencrypted, hvalue, h.modulus, ← Nat.pow_mod, ← Nat.pow_mul,
    h.power _ hlt]
  exact Bytes.ofNat_toNat_of_length hlength

/-- The padding ends at the first zero, and no byte of it is zero. -/
theorem messageOf_paddedWith {padding : Bytes} (message : Bytes) (h : ∀ b ∈ padding, b ≠ 0) :
    messageOf (PublicKey.paddedWith padding message) = message := by
  have hblock : PublicKey.paddedWith padding message = 0 :: 2 :: (padding ++ 0 :: message) := by
    simp [PublicKey.paddedWith]
  have hnone : padding.findIdx? (· == 0) = none := by
    rw [List.findIdx?_eq_none_iff]
    intro b hb
    simpa using h b hb
  have hend : paddingEnd (PublicKey.paddedWith padding message) = some (padding.length + 2) := by
    rw [hblock, paddingEnd]
    simp [List.findIdx?_append, hnone, List.findIdx?_cons]
  rw [messageOf, hend, hblock]
  simp

end PrivateKey

namespace RandomSource

variable {ρ : Type} [RandomSource ρ]

inductive Leads : ρ → ρ → Prop where
  | refl (r : ρ) : Leads r r
  | word {r r' : ρ} : Leads r r' → Leads r (RandomSource.word r').2
  | fill {r r' : ρ} (n : Nat) : Leads r r' → Leads r (RandomSource.fill r' n).2

def later : (n : Nat) → ρ → ρ
  | 0, r => r
  | n + 1, r => later n (RandomSource.fill r 1).2

def upcoming : (n : Nat) → ρ → Bytes
  | 0, _ => []
  | n + 1, r => (RandomSource.fill r 1).1.headD 0 :: upcoming n (RandomSource.fill r 1).2

/-- Whatever is drawn, a byte that is not zero is still to come. -/
def Lively (r : ρ) : Prop :=
  ∀ r', Leads r r' → ∃ n, (RandomSource.fill (later n r') 1).1.headD 0 ≠ 0

theorem Leads.trans {r r' r'' : ρ} (h : Leads r r') (h' : Leads r' r'') : Leads r r'' := by
  induction h' with
  | refl => exact h
  | word _ ih => exact ih.word
  | fill n _ ih => exact ih.fill n

/-- A lively source stays lively, whatever is drawn from it. -/
theorem Lively.of_leads {r r' : ρ} (h : Lively r) (hr : Leads r r') : Lively r' :=
  fun _ hr' => h _ (hr.trans hr')

theorem upcoming_add (m n : Nat) (r : ρ) :
    upcoming (m + n) r = upcoming m r ++ upcoming n (later m r) := by
  induction m generalizing r with
  | zero =>
    rw [Nat.zero_add]
    rfl
  | succ m ih =>
    rw [Nat.succ_add, upcoming, upcoming, ih, List.cons_append]
    rfl

theorem leads_later (r : ρ) (n : Nat) : Leads r (later n r) := by
  induction n generalizing r with
  | zero => exact .refl r
  | succ n ih => exact ((Leads.refl r).fill 1).trans (ih _)

theorem leads_bytes (r : ρ) (n : Nat) : Leads r (RandomSource.bytes r n).2 := by
  induction n generalizing r with
  | zero => exact .refl r
  | succ n ih => exact (Leads.word (.refl r)).trans (ih _)

end RandomSource

namespace ScriptedSource

open RandomSource

theorem step_next_ne_zero {s : ScriptedSource} (h : s.next ≠ 0) : s.step.2.next ≠ 0 := by
  obtain ⟨script, next, used⟩ := s
  cases script with
  | nil =>
    simp only [step]
    split
    · decide
    · rename_i hlast
      -- Only 255 has no successor.
      rw [Ne, ← UInt8.toNat_inj, UInt8.toNat_add]
      rw [← UInt8.toNat_inj] at hlast
      have hone : (1 : UInt8).toNat = 1 := rfl
      have hall : (255 : UInt8).toNat = 255 := rfl
      have hzero : (0 : UInt8).toNat = 0 := rfl
      have hlt : next.toNat < 256 := next.toNat_lt
      omega
  | cons b rest => exact h

theorem fill_next_ne_zero {s : ScriptedSource} (h : s.next ≠ 0) (n : Nat) :
    (s.fill n).2.next ≠ 0 := by
  induction n generalizing s with
  | zero => exact h
  | succ n ih => exact ih (step_next_ne_zero h)

/-- A source that counts on from a byte that is not zero never gets to zero. -/
theorem next_ne_zero_of_leads {s t : ScriptedSource} (h : Leads s t) (hs : s.next ≠ 0) :
    t.next ≠ 0 := by
  induction h with
  | refl => exact hs
  | word _ ih => exact fill_next_ne_zero ih 4
  | fill n _ ih => exact fill_next_ne_zero ih n

/-- After its script a source draws no more zeros. -/
theorem later_spec {s : ScriptedSource} (h : s.next ≠ 0) :
    (RandomSource.fill (later s.script.length s) 1).1.headD 0 ≠ 0 := by
  obtain ⟨script, next, used⟩ := s
  induction script generalizing used with
  | nil => exact h
  | cons b rest ih => exact ih (used + 1) h

/-- A source that counts gives a byte that is not zero again and again. -/
theorem lively {s : ScriptedSource} (h : s.next ≠ 0) : Lively s := by
  intro t ht
  exact ⟨t.script.length, later_spec (next_ne_zero_of_leads ht h)⟩

end ScriptedSource

namespace PublicKey

open RandomSource

variable {ρ : Type} [RandomSource ρ]

def usable (bs : Bytes) : Bytes :=
  bs.filter (· ≠ 0)

theorem usable_cons_zero (bs : Bytes) : usable (0 :: bs) = usable bs :=
  List.filter_cons_of_neg (by decide)

theorem usable_cons {b : UInt8} (h : b ≠ 0) (bs : Bytes) : usable (b :: bs) = b :: usable bs :=
  List.filter_cons_of_pos (decide_eq_true h)

/-- Which bytes can be used does not depend on how they are drawn. -/
theorem usable_append (as bs : Bytes) : usable (as ++ bs) = usable as ++ usable bs :=
  List.filter_append as bs

/-- The bytes that are not zero are drawn in their order, and no byte is drawn after the last one that
is needed. -/
theorem nonZeroBytes_upcoming {n count : Nat} {r : ρ}
    (h : count ≤ (usable (upcoming n r)).length) :
    ∃ m ≤ n, usable (upcoming m r) = (usable (upcoming n r)).take count ∧
      ∀ fuel, m ≤ fuel →
        nonZeroBytes fuel count r = (some ((usable (upcoming n r)).take count), later m r) := by
  induction n generalizing count r with
  | zero =>
    obtain rfl : count = 0 := Nat.le_zero.1 h
    refine ⟨0, Nat.le_refl 0, rfl, ?_⟩
    intro fuel _
    cases fuel <;> rfl
  | succ n ih =>
    cases count with
    | zero =>
      refine ⟨0, Nat.zero_le _, rfl, ?_⟩
      intro fuel _
      cases fuel <;> rfl
    | succ count =>
      by_cases hzero : (RandomSource.fill r 1).1.headD 0 = 0
      · have hskip (k : Nat) : usable (upcoming (k + 1) r) =
            usable (upcoming k (RandomSource.fill r 1).2) := by
          rw [upcoming, hzero, usable_cons_zero]
        rw [hskip] at h ⊢
        obtain ⟨m, hm, hused, hdrawn⟩ := ih h
        refine ⟨m + 1, Nat.succ_le_succ hm, ?_, ?_⟩
        · rw [hskip, hused]
        · intro fuel hfuel
          obtain ⟨fuel, rfl⟩ : ∃ k, fuel = k + 1 := ⟨fuel - 1, by omega⟩
          rw [nonZeroBytes]
          simp only [hzero, if_true, hdrawn fuel (by omega)]
          rfl
      · have hkeep (k : Nat) : usable (upcoming (k + 1) r) = (RandomSource.fill r 1).1.headD 0 ::
            usable (upcoming k (RandomSource.fill r 1).2) :=
          usable_cons hzero _
        rw [hkeep, List.length_cons] at h
        obtain ⟨m, hm, hused, hdrawn⟩ := ih (Nat.le_of_succ_le_succ h)
        refine ⟨m + 1, Nat.succ_le_succ hm, ?_, ?_⟩
        · rw [hkeep, hkeep, hused, List.take_succ_cons]
        · intro fuel hfuel
          obtain ⟨fuel, rfl⟩ : ∃ k, fuel = k + 1 := ⟨fuel - 1, by omega⟩
          rw [nonZeroBytes, hkeep, List.take_succ_cons]
          simp only [hzero, if_false, hdrawn fuel (by omega), Option.map_some]
          rfl

/-- A lively source has as many bytes that are not zero as are asked for. -/
theorem exists_usable {r : ρ} (hlive : Lively r) (count : Nat) :
    ∃ n, count ≤ (usable (upcoming n r)).length := by
  induction count generalizing r with
  | zero => exact ⟨0, Nat.zero_le _⟩
  | succ count ih =>
    obtain ⟨k, hk⟩ := hlive r (.refl r)
    obtain ⟨n, hn⟩ := ih (hlive.of_leads (leads_later r (k + 1)))
    refine ⟨(k + 1) + n, ?_⟩
    -- The byte after the first `k` is one of them, and the others come after it.
    have hfirst : usable (upcoming (k + 1) r) =
        usable (upcoming k r) ++ [(RandomSource.fill (later k r) 1).1.headD 0] := by
      rw [upcoming_add, usable_append]
      exact congrArg _ (usable_cons hk [])
    rw [upcoming_add, usable_append, hfirst, List.length_append, List.length_append,
      List.length_singleton]
    omega

/-- From a lively source as many bytes that are not zero are drawn as are asked for. -/
theorem exists_nonZeroBytes {r : ρ} (hlive : Lively r) (count : Nat) :
    ∃ bound bs r', ∀ fuel, bound ≤ fuel → nonZeroBytes fuel count r = (some bs, r') := by
  obtain ⟨n, hn⟩ := exists_usable hlive count
  obtain ⟨m, -, -, hdrawn⟩ := nonZeroBytes_upcoming hn
  exact ⟨m, _, _, hdrawn⟩

theorem length_paddedWith (padding message : Bytes) :
    (paddedWith padding message).length = padding.length + message.length + 3 := by
  simp only [paddedWith, List.length_append, List.length_cons, List.length_nil]
  omega

/-- What is as long as the modulus when it is padded is smaller than the modulus. -/
theorem toNat_paddedWith_lt {key : PublicKey} {padding message : Bytes}
    (h : padding.length + message.length + 3 = key.byteLength) :
    (paddedWith padding message).toNat < key.modulus.value := by
  rw [← length_paddedWith] at h
  exact key.toNat_cons_zero_lt h

/-- A message that fits is padded with what was drawn, and then raised. -/
theorem encrypt_of_nonZeroBytes {key : PublicKey} {message padding : Bytes} {fuel : Nat} {r r' : ρ}
    (hroom : message.length + paddingOverhead ≤ key.byteLength)
    (h : nonZeroBytes fuel (key.byteLength - message.length - 3) r = (some padding, r')) :
    key.encrypt fuel message r =
      ((key.raise (paddedWith padding message)).mapError fun e => .failed (.arithmetic e), r') := by
  have hfits : ¬(key.byteLength < paddingOverhead ∨
      message.length > key.byteLength - paddingOverhead) := by
    have hoverhead : paddingOverhead = 11 := rfl
    omega
  have hpad : pad fuel message key.byteLength r = (.ok (paddedWith padding message), r') := by
    rw [pad, if_neg hfits, h]
    rfl
  rw [encrypt, hpad]

/-- A message that fits is encrypted, and whoever can undo the public operation gets it back. -/
theorem exists_encrypt {key : PublicKey} {secret : PrivateKey} (hsecret : secret.Inverts key)
    {message : Bytes} (hroom : message.length + paddingOverhead ≤ key.byteLength) {r : ρ}
    (hlive : Lively r) :
    ∃ bound encrypted r',
      (∀ fuel, bound ≤ fuel → key.encrypt fuel message r = (.ok encrypted, r')) ∧
        encrypted.length = key.byteLength ∧
        PrivateKey.messageOf (secret.recover encrypted) = message := by
  have hoverhead : paddingOverhead = 11 := rfl
  obtain ⟨bound, padding, r', hpadding⟩ :=
    exists_nonZeroBytes hlive (key.byteLength - message.length - 3)
  obtain ⟨hcount, hnonzero⟩ := nonZeroBytes_eq_some (hpadding bound (Nat.le_refl _))
  have hlength : padding.length + message.length + 3 = key.byteLength := by omega
  obtain ⟨encrypted, hraise, hencrypted, hrecover⟩ :=
    hsecret.recover ((length_paddedWith _ _).trans hlength) (toNat_paddedWith_lt hlength)
  refine ⟨bound, encrypted, r', ?_, hencrypted, ?_⟩
  · intro fuel hfuel
    rw [encrypt_of_nonZeroBytes hroom (hpadding fuel hfuel), hraise]
    rfl
  · rw [hrecover]
    exact PrivateKey.messageOf_paddedWith message hnonzero

end PublicKey
end TlsClient
