import Mathlib.Data.Nat.ChineseRemainder
import Mathlib.FieldTheory.Finite.Basic
import Mathlib.Tactic.NormNum.Prime
import TlsClient.Proofs.Rsa.Recovery

namespace TlsClient

/-- Modulo a prime an exponent counts modulo the number before it. -/
theorem pow_modEq_of_prime {p m : Nat} (hp : p.Prime) (hpos : m ≠ 0) (hm : m ≡ 1 [MOD p - 1])
    (x : Nat) : x ^ m ≡ x [MOD p] := by
  obtain ⟨k, rfl⟩ : ∃ k, m = 1 + (p - 1) * k := by
    obtain ⟨k, hk⟩ := (Nat.modEq_iff_dvd' (Nat.one_le_iff_ne_zero.2 hpos)).1 hm.symm
    exact ⟨k, by omega⟩
  by_cases hx : p ∣ x
  · have hzero : x ≡ 0 [MOD p] := Nat.modEq_zero_iff_dvd.2 hx
    calc
      x ^ (1 + (p - 1) * k) ≡ 0 ^ (1 + (p - 1) * k) [MOD p] := hzero.pow _
      _ = 0 := zero_pow hpos
      _ ≡ x [MOD p] := hzero.symm
  · -- Fermat: the number before the prime is an exponent that changes nothing.
    have hunit : x ^ (p - 1) ≡ 1 [MOD p] := by
      rw [← Nat.totient_prime hp]
      exact Nat.ModEq.pow_totient ((Nat.coprime_comm.1 ((hp.coprime_iff_not_dvd).2 hx)))
    calc
      x ^ (1 + (p - 1) * k) = x * (x ^ (p - 1)) ^ k := by rw [pow_add, pow_one, pow_mul]
      _ ≡ x * 1 ^ k [MOD p] := (hunit.pow k).mul_left x
      _ = x := by rw [one_pow, mul_one]

namespace PrivateKey

/-- If the modulus is a product of different primes, the exponents undo each other as soon as they do
so modulo the number before each of the primes. -/
theorem inverts_of_primes {secret : PrivateKey} {key : PublicKey} {primes : List Nat}
    (hmodulus : secret.modulus = key.modulus.value) (hprod : primes.prod = key.modulus.value)
    (hprime : ∀ p ∈ primes, p.Prime) (hdistinct : primes.Nodup)
    (hexponents : ∀ p ∈ primes, key.exponent.value * secret.exponent ≡ 1 [MOD p - 1])
    (hpos : key.exponent.value * secret.exponent ≠ 0) : secret.Inverts key := by
  refine ⟨hmodulus, fun x hx => ?_⟩
  have hcoprime : primes.Pairwise Nat.Coprime := by
    apply hdistinct.imp_of_mem
    intro p q hp hq hne
    exact (Nat.coprime_primes (hprime p hp) (hprime q hq)).2 hne
  have hall : x ^ (key.exponent.value * secret.exponent) ≡ x [MOD primes.prod] := by
    apply (Nat.modEq_list_prod_iff hcoprime).2
    intro i
    have hmem : primes.get i ∈ primes := List.get_mem primes i
    exact pow_modEq_of_prime (hprime _ hmem) hpos (hexponents _ hmem) x
  calc
    _ = x % key.modulus.value := hprod ▸ hall
    _ = x := Nat.mod_eq_of_lt hx

end PrivateKey

namespace PublicKey

open RandomSource

variable {ρ : Type} [RandomSource ρ]

/-- What a message is encrypted to behind a padding. -/
structure Encryption (key : PublicKey) (message padding encrypted : Bytes) : Prop where
  length_padding : padding.length = key.byteLength - message.length - 3
  ne_zero : ∀ b ∈ padding, b ≠ 0
  /-- The padded message is a number that the modulus leaves as it is. -/
  smaller : (paddedWith padding message).toNat < key.modulus.value
  length : encrypted.length = key.byteLength
  power : encrypted.toNat =
    (paddedWith padding message).toNat ^ key.exponent.value % key.modulus.value
  recovered : ∀ d, (∀ x < key.modulus.value, x ^ (key.exponent.value * d) % key.modulus.value = x) →
    PrivateKey.messageOf
      (Bytes.ofNat key.byteLength (encrypted.toNat ^ d % key.modulus.value)) = message

/-- Padding of the right length without zeros makes an encryption of the message. -/
theorem exists_encryption (key : PublicKey) (message : Bytes) {padding : Bytes}
    (hlength : padding.length + message.length + 3 = key.byteLength) (h : ∀ b ∈ padding, b ≠ 0) :
    ∃ encrypted, key.raise (paddedWith padding message) = .ok encrypted ∧
      key.Encryption message padding encrypted := by
  have hblock : (paddedWith padding message).length = key.byteLength :=
    (length_paddedWith _ _).trans hlength
  have hsmaller := toNat_paddedWith_lt hlength
  obtain ⟨encrypted, hraise, hencrypted, hpower⟩ := key.exists_raise hblock
  refine ⟨encrypted, hraise, by omega, h, hsmaller, hencrypted, hpower, fun d hd => ?_⟩
  have hback : (encrypted.toNat ^ d) % key.modulus.value = (paddedWith padding message).toNat := by
    rw [hpower, ← Nat.pow_mod, ← Nat.pow_mul, hd _ hsmaller]
  rw [hback, Bytes.ofNat_toNat_of_length hblock]
  exact PrivateKey.messageOf_paddedWith message h

/-- Without room for the padding a message is refused and nothing is drawn. Otherwise, if enough bytes
that are not zero are among the next `n` of the source, the first of them are the padding, no byte
after them is drawn, and the message can be recovered from what it is encrypted to. -/
theorem encrypt_recoverable (key : PublicKey) (message : Bytes) (r : ρ) :
    if key.byteLength < 11 ∨ message.length > key.byteLength - 11 then
      ∀ fuel, key.encrypt fuel message r =
        (.error (.failed (.crypto (.messageTooLong message.length key.byteLength))), r)
    else ∀ n, key.byteLength - message.length - 3 ≤ (usable (upcoming n r)).length →
      ∃ m ≤ n, ∃ padding encrypted,
        padding = (usable (upcoming n r)).take (key.byteLength - message.length - 3) ∧
        usable (upcoming m r) = padding ∧
        (∀ fuel, m ≤ fuel → key.encrypt fuel message r = (.ok encrypted, later m r)) ∧
        key.Encryption message padding encrypted := by
  have hoverhead : paddingOverhead = 11 := rfl
  split
  · rename_i hlong
    intro fuel
    rw [← hoverhead] at hlong
    rw [encrypt, pad, if_pos hlong]
  · rename_i hfits
    intro n hn
    obtain ⟨m, hm, hused, hdrawn⟩ := nonZeroBytes_upcoming hn
    obtain ⟨hcount, hnonzero⟩ := nonZeroBytes_eq_some (hdrawn m (Nat.le_refl m))
    obtain ⟨encrypted, hraise, hencryption⟩ :=
      exists_encryption key message (by omega) hnonzero
    refine ⟨m, hm, _, encrypted, rfl, hused, fun fuel hfuel => ?_, hencryption⟩
    rw [encrypt_of_nonZeroBytes (by omega) (hdrawn fuel hfuel), hraise]
    rfl

def shortKey : PublicKey where
  modulus := ⟨[81538323, 4091034957, 458196958], by decide, by decide⟩
  exponent := ⟨[11], by decide, by decide⟩
  exponent_ne_zero := rfl
  exponent_less := by decide

def shortKeyPrimes : List Nat :=
  [2521, 1009, 631, 421, 337, 281, 241, 211, 181, 127, 113]

theorem shortKey_inverts : PrivateKey.Inverts ⟨shortKey.modulus.value, 2291⟩ shortKey := by
  have hprime : ∀ p ∈ shortKeyPrimes, p.Prime := by
    simp only [shortKeyPrimes, List.forall_mem_cons]
    norm_num
  exact PrivateKey.inverts_of_primes rfl (by decide +kernel) hprime (by decide +kernel)
    (by decide +kernel) (by decide +kernel)

/-- The zeros of the source are passed over, and the private exponent gives the byte back. -/
theorem shortKey_recovered : ∃ m ≤ 11, ∃ encrypted,
    upcoming 11 (ScriptedSource.ofBytes [0, 7, 0, 0, 9]) = [0, 7, 0, 0, 9, 1, 2, 3, 4, 5, 6] ∧
    (∀ fuel, m ≤ fuel → shortKey.encrypt fuel [42] (ScriptedSource.ofBytes [0, 7, 0, 0, 9]) =
      (.ok encrypted, later m (.ofBytes [0, 7, 0, 0, 9]))) ∧
    shortKey.Encryption [42] [7, 9, 1, 2, 3, 4, 5, 6] encrypted ∧
    PrivateKey.messageOf
      (Bytes.ofNat 12 (encrypted.toNat ^ 2291 % shortKey.modulus.value)) = [42] := by
  have hencrypt := encrypt_recoverable shortKey [42] (ScriptedSource.ofBytes [0, 7, 0, 0, 9])
  rw [if_neg (by decide +kernel)] at hencrypt
  obtain ⟨m, hm, padding, encrypted, hpadding, -, hrun, hencryption⟩ :=
    hencrypt 11 (by decide +kernel)
  have hbytes : padding = [7, 9, 1, 2, 3, 4, 5, 6] := by
    rw [hpadding]
    decide +kernel
  subst hbytes
  have hwidth : shortKey.byteLength = 12 := by decide +kernel
  have hback := hencryption.recovered 2291 shortKey_inverts.power
  rw [hwidth] at hback
  exact ⟨m, hm, encrypted, by decide +kernel, hrun, hencryption, hback⟩

end PublicKey
end TlsClient
