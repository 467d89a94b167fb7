import TlsClient.Bytes

namespace TlsClient

class RandomSource (ρ : Type) where
  word : ρ → UInt32 × ρ
  fill : ρ → (n : Nat) → Bytes × ρ
  length_fill : ∀ (r : ρ) (n : Nat), (fill r n).1.length = n

namespace RandomSource

variable {ρ : Type} [RandomSource ρ]

def byte (r : ρ) : UInt8 × ρ :=
  let (w, r) := word r
  (w.toUInt8, r)

def word64 (r : ρ) : UInt64 × ρ :=
  let (low, r) := word r
  let (high, r) := word r
  (low.toUInt64 + (high.toUInt64 <<< 32), r)

def bool (r : ρ) : Bool × ρ :=
  let (w, r) := word r
  (w >>> 31 == 1, r)

def bytes (r : ρ) : (n : Nat) → Bytes × ρ
  | 0 => ([], r)
  | n + 1 =>
    let (b, r) := byte r
    let (bs, r) := bytes r n
    (b :: bs, r)

@[simp] theorem length_bytes (r : ρ) (n : Nat) : (bytes r n).1.length = n := by
  induction n generalizing r with
  | zero => rfl
  | succ n ih => simp [bytes, ih]

end RandomSource
end TlsClient
