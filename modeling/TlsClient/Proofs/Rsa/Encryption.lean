import TlsClient.Rsa.Encryption

namespace TlsClient

theorem mapError_eq_ok_iff {ε ε' α : Type} {x : Except ε α} {f : ε → ε'} {a : α} :
    x.mapError f = .ok a ↔ x = .ok a := by
  constructor
  · intro h
    cases x with
    | ok b => exact congrArg Except.ok (Except.ok.inj h)
    | error e => cases h
  · rintro rfl
    rfl

namespace PublicKey

variable {ρ : Type} [RandomSource ρ]

def paddedWith (padding message : Bytes) : Bytes :=
  [0, 2] ++ padding ++ [0] ++ message

/-- Whether a byte string is a message that was padded and raised to the public exponent. -/
def Encrypts (key : PublicKey) (message encrypted : Bytes) : Prop :=
  ∃ padding : Bytes, 8 ≤ padding.length ∧ (∀ b ∈ padding, b ≠ 0) ∧
    padding.length + message.length + 3 = key.byteLength ∧
    key.raise (paddedWith padding message) = .ok encrypted

/-- Exactly the wanted number of bytes is drawn that are not zero. -/
theorem nonZeroBytes_eq_some {fuel count : Nat} {r r' : ρ} {bs : Bytes}
    (h : nonZeroBytes fuel count r = (some bs, r')) : bs.length = count ∧ ∀ b ∈ bs, b ≠ 0 := by
  induction fuel generalizing count r bs with
  | zero =>
    cases count with
    | zero =>
      cases h
      exact ⟨rfl, by simp⟩
    | succ count => cases h
  | succ fuel ih =>
    cases count with
    | zero =>
      cases h
      exact ⟨rfl, by simp⟩
    | succ count =>
      simp only [nonZeroBytes] at h
      split at h
      · exact ih h
      · rename_i hne
        -- The byte that was drawn is kept, so one less is still needed.
        cases hrest : nonZeroBytes fuel count (RandomSource.fill r 1).2 with
        | mk rest r'' =>
          rw [hrest] at h
          cases rest with
          | none => cases h
          | some rest =>
            cases h
            obtain ⟨hlength, hall⟩ := ih hrest
            exact ⟨congrArg (· + 1) hlength, List.forall_mem_cons.2 ⟨hne, hall⟩⟩

/-- What comes out of encryption is the message behind proper padding. -/
theorem encrypts_of_encrypt {key : PublicKey} {fuel : Nat} {message encrypted : Bytes} {r r' : ρ}
    (h : key.encrypt fuel message r = (.ok encrypted, r')) : key.Encrypts message encrypted := by
  unfold encrypt pad at h
  by_cases hlong : key.byteLength < paddingOverhead ∨
      message.length > key.byteLength - paddingOverhead
  · rw [if_pos hlong] at h
    cases h
  · rw [if_neg hlong] at h
    cases hpadding : nonZeroBytes fuel (key.byteLength - message.length - 3) r with
    | mk result r'' =>
      rw [hpadding] at h
      cases result with
      | none => cases h
      | some padding =>
        obtain ⟨hlength, hall⟩ := nonZeroBytes_eq_some hpadding
        have hroom : paddingOverhead = 11 := rfl
        refine ⟨padding, by omega, hall, by omega, ?_⟩
        exact mapError_eq_ok_iff.1 (Prod.mk.inj h).1

end PublicKey
end TlsClient
