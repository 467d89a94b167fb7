namespace TlsClient

abbrev Bytes := List UInt8

abbrev Octets (n : Nat) := Vector UInt8 n

namespace Bytes

def toNat (bs : Bytes) : Nat :=
  bs.foldl (fun n b => 256 * n + b.toNat) 0

def ofNat : (len n : Nat) → Bytes
  | 0, _ => []
  | len + 1, n => ofNat len (n / 256) ++ [UInt8.ofNat n]

def xor (a b : Bytes) : Bytes :=
  List.zipWith (· ^^^ ·) a b

def agree (a b : Bytes) : Bool :=
  -- Every difference is collected, so the time taken does not depend on where the first one is.
  a.length == b.length && (xor a b).foldl (· ||| ·) 0 == 0

def chunks (k : Nat) (bs : Bytes) : List Bytes :=
  if _ : k = 0 ∨ bs = [] then [] else
    bs.take k :: chunks k (bs.drop k)
termination_by bs.length
decreasing_by
  have : bs.length ≠ 0 := by simp_all
  simp only [List.length_drop]
  omega

@[simp] theorem toNat_nil : toNat [] = 0 := rfl

/-- The last byte counts once and everything in front of it 256 times as much. -/
theorem toNat_append_singleton (bs : Bytes) (b : UInt8) :
    toNat (bs ++ [b]) = 256 * toNat bs + b.toNat := by
  simp [toNat]

@[simp] theorem length_ofNat (len n : Nat) : (ofNat len n).length = len := by
  induction len generalizing n with
  | zero => rfl
  | succ len ih => simp [ofNat, ih]

/-- Reading and writing with the same length leaves every byte as it was, leading zeros included. -/
theorem ofNat_toNat (bs : Bytes) : ofNat bs.length (toNat bs) = bs := by
  rcases List.eq_nil_or_concat bs with rfl | ⟨init, b, rfl⟩
  · rfl
  · rw [List.concat_eq_append]
    have hdiv : (256 * toNat init + b.toNat) / 256 = toNat init := by
      have := b.toNat_lt
      omega
    have hb : UInt8.ofNat (256 * toNat init + b.toNat) = b := by
      apply UInt8.toNat_inj.1
      have := b.toNat_lt
      simp only [UInt8.toNat_ofNat', Nat.reducePow]
      omega
    have ih := ofNat_toNat init
    rw [toNat_append_singleton, List.length_append, List.length_singleton, ofNat, hdiv, ih, hb]
termination_by bs.length
decreasing_by
  subst bs
  simp

theorem chunks_nil (k : Nat) : chunks k [] = [] := by
  simp [chunks]

theorem chunks_of_ne_nil {k : Nat} {bs : Bytes} (hk : k ≠ 0) (h : bs ≠ []) :
    chunks k bs = bs.take k :: chunks k (bs.drop k) := by
  rw [chunks, dif_neg (by simp [hk, h])]

end Bytes

def Octets.ofBytes (n : Nat) (bs : Bytes) : Octets n :=
  Vector.ofFn fun i => bs.getD i 0

@[simp] theorem Octets.ofBytes_toList {n : Nat} (v : Octets n) : ofBytes n v.toList = v := by
  ext i hi
  simp [ofBytes, List.getD_eq_getElem?_getD]

theorem Octets.toList_ofBytes {n : Nat} {bs : Bytes} (h : bs.length = n) :
    (ofBytes n bs).toList = bs := by
  apply List.ext_getElem
  · simp [h]
  · intro i hi hj
    simp [ofBytes, List.getD_eq_getElem?_getD, hj]

end TlsClient
