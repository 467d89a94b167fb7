import TlsClient.Proofs.Natural.Arithmetic

/-!
Numbers and their big-endian bytes. Reading takes the leading zeros off a byte string and puts each
byte that is left into its word; writing clears the buffer and puts each byte that the number has into
its place, the lowest one last. Both are exact for every length, and each undoes the other. Main
statement: `bytes_exact`.
-/

namespace TlsClient

/-! ### Digits in base 256 -/

namespace Bytes

def bigEndian (n : ℕ) : Bytes :=
  (Nat.digits 256 n).reverse.map UInt8.ofNat

theorem bigEndian_of_ne_zero {n : ℕ} (h : n ≠ 0) :
    bigEndian n = bigEndian (n / 256) ++ [UInt8.ofNat n] := by
  have hlast : UInt8.ofNat (n % 256) = UInt8.ofNat n := by
    apply UInt8.toNat_inj.1
    rw [UInt8.toNat_ofNat', UInt8.toNat_ofNat', Nat.mod_mod]
  rw [bigEndian, Nat.digits_def' (by decide) (Nat.pos_of_ne_zero h), List.reverse_cons,
    List.map_append, List.map_singleton, hlast, bigEndian]

/-- A number has as many bytes as its bits take. -/
theorem length_bigEndian (n : ℕ) : (bigEndian n).length = (Nat.size n + 7) / 8 := by
  rw [bigEndian, List.length_map, List.length_reverse]
  exact Natural.length_digits (by decide : 0 < 8) n

/-- A number has as many bytes as are needed to tell it from those that are larger. -/
theorem length_bigEndian_le_iff {n len : ℕ} : (bigEndian n).length ≤ len ↔ n < 256 ^ len := by
  rw [bigEndian, List.length_map, List.length_reverse, Nat.digits_length_le_iff (by decide)]

/-- In more bytes than it has a number is padded with zeros. -/
theorem ofNat_eq_padded {n len : ℕ} (h : n < 256 ^ len) :
    ofNat len n = List.replicate (len - (bigEndian n).length) 0 ++ bigEndian n := by
  induction len generalizing n with
  | zero =>
    obtain rfl : n = 0 := Nat.lt_one_iff.1 h
    rfl
  | succ len ih =>
    have hlow : n / 256 < 256 ^ len := Nat.div_lt_of_lt_mul (by rwa [Nat.pow_succ'] at h)
    rw [ofNat, ih hlow]
    by_cases hzero : n = 0
    · have hnone : bigEndian 0 = [] := rfl
      rw [hzero, Nat.zero_div, hnone, List.append_nil, List.append_nil, List.length_nil,
        Nat.sub_zero, Nat.sub_zero, List.replicate_succ']
      rfl
    · have hlength : len + 1 - (bigEndian (n / 256) ++ [UInt8.ofNat n]).length
          = len - (bigEndian (n / 256)).length := by
        rw [List.length_append, List.length_singleton, Nat.add_sub_add_right]
      rw [bigEndian_of_ne_zero hzero, hlength, List.append_assoc]

/-- The bytes of a number denote it. -/
theorem toNat_bigEndian (n : ℕ) : toNat (bigEndian n) = n := by
  have hlt : n < 256 ^ (bigEndian n).length := length_bigEndian_le_iff.1 (Nat.le_refl _)
  have hsame : ofNat (bigEndian n).length n = bigEndian n := by
    rw [ofNat_eq_padded hlt, Nat.sub_self, List.replicate_zero, List.nil_append]
  rw [← hsame, toNat_ofNat, Nat.mod_eq_of_lt hlt]

/-- The bytes of the number that a string denotes are those behind its leading zeros. -/
theorem bigEndian_toNat (bs : Bytes) : bigEndian (toNat bs) = bs.dropWhile (· == 0) := by
  induction bs with
  | nil => rfl
  | cons b bs ih =>
    by_cases hb : b = 0
    · have hsame : toNat (b :: bs) = toNat bs := by
        rw [hb]
        rfl
      rw [hsame, ih, List.dropWhile_cons_of_pos (by simp [hb])]
    · -- The first byte is not zero, so the number needs all of them.
      have hone : toNat [b] = b.toNat := Nat.zero_add b.toNat
      have hvalue : toNat (b :: bs) = 256 ^ bs.length * b.toNat + toNat bs := by
        rw [← hone, ← toNat_append, List.singleton_append]
      have hpos : 0 < b.toNat := Nat.pos_of_ne_zero fun h => hb (UInt8.toNat_inj.1 h)
      have hle : 256 ^ bs.length ≤ toNat (b :: bs) := by
        have hfirst := Nat.le_mul_of_pos_right (256 ^ bs.length) hpos
        omega
      have hlt := toNat_lt (b :: bs)
      have hlength : (bigEndian (toNat (b :: bs))).length = (b :: bs).length := by
        have hupper := length_bigEndian_le_iff.2 hlt
        have hlower := mt length_bigEndian_le_iff.1 (Nat.not_lt.2 hle)
        rw [List.length_cons] at hupper ⊢
        omega
      have hpadded := ofNat_eq_padded hlt
      rw [ofNat_toNat, hlength, Nat.sub_self, List.replicate_zero, List.nil_append] at hpadded
      rw [← hpadded, List.dropWhile_cons_of_neg (by simp [hb])]

end Bytes

/-! ### Bytes in words -/

namespace Words

/-- Words of one length are told apart by their numbers. -/
theorem eq_of_value_eq {a b : List UInt32} (hlength : a.length = b.length)
    (h : value a = value b) : a = b := by
  induction a generalizing b with
  | nil => exact (List.length_eq_zero_iff.1 hlength.symm).symm
  | cons x xs ih =>
    cases b with
    | nil => cases hlength
    | cons y ys =>
      have hx : x.toNat < 2 ^ 32 := x.toNat_lt
      have hy : y.toNat < 2 ^ 32 := y.toNat_lt
      rw [value, value, UInt32.size] at h
      have hlow : x.toNat = y.toNat := by omega
      have hhigh : value xs = value ys := by omega
      rw [UInt32.toNat_inj.1 hlow, ih (Nat.succ.inj hlength) hhigh]

def place (ws : List UInt32) (i : ℕ) (b : UInt8) : List UInt32 :=
  ws.modify (i / 4) (· ||| b.toUInt32 <<< UInt32.ofNat (8 * (i % 4)))

/-- Puts the bytes of a little-endian string into words, from byte `i` on. -/
def scatter : Bytes → ℕ → List UInt32 → List UInt32
  | [], _, ws => ws
  | b :: bs, i, ws => scatter bs (i + 1) (place ws i b)

def overwrite (ws : List UInt32) (n : ℕ) (buffer : Bytes) : Bytes :=
  (List.range n).foldl
    (fun out i => out.set (buffer.length - 1 - i)
      (ws.getD (i / 4) 0 >>> UInt32.ofNat (8 * (i % 4))).toUInt8)
    (List.replicate buffer.length 0)

@[simp] theorem length_place (ws : List UInt32) (i : ℕ) (b : UInt8) :
    (place ws i b).length = ws.length :=
  List.length_modify ..

@[simp] theorem length_scatter (bs : Bytes) (i : ℕ) (ws : List UInt32) :
    (scatter bs i ws).length = ws.length := by
  induction bs generalizing i ws with
  | nil => rfl
  | cons b bs ih => rw [scatter, ih, length_place]

/-- A byte that is put above all others does not touch them. -/
theorem value_place (ws : List UInt32) {i : ℕ} (b : UInt8) (hi : i < 4 * ws.length)
    (h : value ws < 256 ^ i) : value (place ws i b) = value ws + 256 ^ i * b.toNat := by
  induction ws generalizing i with
  | nil => cases hi
  | cons w ws ih =>
    have hb : b.toNat < 256 := b.toNat_lt
    rw [value, UInt32.size] at h
    by_cases hlow : i < 4
    · have hpow : 256 ^ i = 2 ^ (8 * i) := by rw [Nat.pow_mul]
      have hle : 256 ^ i ≤ 256 ^ 3 := Nat.pow_le_pow_right (by decide) (by omega)
      have hshift : (b.toUInt32 <<< UInt32.ofNat (8 * i)).toNat = 256 ^ i * b.toNat := by
        have hfits : 256 ^ i * b.toNat < 2 ^ 32 := by
          calc
            256 ^ i * b.toNat ≤ 256 ^ 3 * 255 := Nat.mul_le_mul hle (by omega)
            _ < 2 ^ 32 := by decide
        rw [UInt32.toNat_shiftLeft, UInt8.toNat_toUInt32, UInt32.toNat_ofNat', Nat.shiftLeft_eq,
          Nat.mod_eq_of_lt (by omega : 8 * i < 2 ^ 32), Nat.mod_eq_of_lt (by omega : 8 * i < 32),
          ← hpow, Nat.mul_comm, Nat.mod_eq_of_lt hfits]
      have hword : (w ||| b.toUInt32 <<< UInt32.ofNat (8 * i)).toNat
          = w.toNat + 256 ^ i * b.toNat := by
        rw [UInt32.toNat_or, hshift, hpow, Nat.or_comm,
          ← Nat.two_pow_add_eq_or_of_lt (by omega), Nat.add_comm]
      rw [place, Nat.div_eq_of_lt hlow, Nat.mod_eq_of_lt hlow, List.modify_zero_cons, value, value,
        hword]
      omega
    · obtain ⟨j, rfl⟩ : ∃ j, i = j + 4 := ⟨i - 4, by omega⟩
      have hword : 256 ^ 4 = 2 ^ 32 := by decide
      have hpow : 256 ^ (j + 4) = 2 ^ 32 * 256 ^ j := by rw [Nat.pow_add, hword, Nat.mul_comm]
      have hrest := ih (i := j) (by rw [List.length_cons] at hi; omega) (by omega)
      rw [place] at hrest ⊢
      rw [Nat.add_div_right _ (by decide), Nat.add_mod_right, List.modify_succ_cons, value, value,
        hrest, hpow, UInt32.size, Nat.mul_assoc]
      omega

/-- Byte after byte the words come to denote what has been put into them. -/
theorem value_scatter {bs : Bytes} {i : ℕ} {ws : List UInt32} (hlength : i + bs.length ≤ 4 * ws.length)
    (h : value ws < 256 ^ i) :
    value (scatter bs i ws) = value ws + 256 ^ i * Bytes.toNat bs.reverse := by
  induction bs generalizing i ws with
  | nil => simp [scatter]
  | cons b bs ih =>
    rw [List.length_cons] at hlength
    have hb : b.toNat ≤ 255 := Nat.le_of_lt_succ b.toNat_lt
    have hplace := value_place ws b (by omega) h
    have hlt : value (place ws i b) < 256 ^ (i + 1) := by
      have hle := Nat.mul_le_mul_left (256 ^ i) hb
      rw [hplace, Nat.pow_succ]
      omega
    rw [scatter, ih (by rw [length_place]; omega) hlt, hplace, List.reverse_cons,
      Bytes.toNat_append_singleton]
    ring

/-- Byte `i` of a number stands in word `i / 4`, at place `i % 4`. -/
theorem byte_eq (ws : List UInt32) (i : ℕ) :
    (ws.getD (i / 4) 0 >>> UInt32.ofNat (8 * (i % 4))).toUInt8 = UInt8.ofNat (value ws / 256 ^ i) := by
  have hword : (ws.getD (i / 4) 0).toNat = value ws / 2 ^ (32 * (i / 4)) % 2 ^ 32 := by
    rw [← value_drop, ← headD_mod, List.headD_eq_head?_getD, List.head?_drop,
      List.getD_eq_getElem?_getD]
  have hpow : 256 ^ i = 2 ^ (32 * (i / 4)) * 2 ^ (8 * (i % 4)) := by
    have hsplit : 8 * i = 32 * (i / 4) + 8 * (i % 4) := by omega
    calc
      256 ^ i = 2 ^ (8 * i) := by rw [Nat.pow_mul]
      _ = 2 ^ (32 * (i / 4)) * 2 ^ (8 * (i % 4)) := by rw [hsplit, Nat.pow_add]
  have hlt : i % 4 < 4 := Nat.mod_lt i (by decide)
  apply UInt8.toNat_inj.1
  rw [UInt32.toNat_toUInt8, UInt32.toNat_shiftRight, UInt32.toNat_ofNat', UInt8.toNat_ofNat', hword,
    hpow, ← Nat.div_div_eq_div_mul, Nat.shiftRight_eq_div_pow,
    Nat.mod_eq_of_lt (by omega : 8 * (i % 4) < 2 ^ 32), Nat.mod_eq_of_lt (by omega : 8 * (i % 4) < 32)]
  generalize value ws / 2 ^ (32 * (i / 4)) = v
  -- The bits that are lost above the word are not among those of the byte.
  obtain hr | hr | hr | hr : i % 4 = 0 ∨ i % 4 = 1 ∨ i % 4 = 2 ∨ i % 4 = 3 := by omega
  all_goals
    rw [hr]
    omega

/-- After `n` bytes the buffer ends with them, and is clear before them. -/
theorem overwrite_eq (ws : List UInt32) {n : ℕ} {buffer : Bytes} (h : n ≤ buffer.length) :
    overwrite ws n buffer =
      List.replicate (buffer.length - n) 0 ++ Bytes.ofNat n (value ws) := by
  induction n with
  | zero => simp [overwrite, Bytes.ofNat]
  | succ n ih =>
    have hroom : buffer.length - n = buffer.length - (n + 1) + 1 := by omega
    have hplace : buffer.length - 1 - n = (List.replicate (buffer.length - (n + 1)) (0 : UInt8)).length
        := by
      rw [List.length_replicate]
      omega
    have hstep := ih (by omega)
    rw [overwrite] at hstep ⊢
    rw [List.range_succ, List.foldl_append, hstep, List.foldl_cons, List.foldl_nil, hroom,
      List.replicate_succ', List.append_assoc, hplace, List.set_append_right _ _ (Nat.le_refl _),
      Nat.sub_self, List.singleton_append, List.set_cons_zero, byte_eq, Bytes.ofNat_succ_eq_cons]

end Words

/-! ### Numbers -/

namespace Natural

open Bytes

variable {a : Natural} {bs buffer : Bytes}

theorem byteLength_eq (a : Natural) : a.byteLength = (bigEndian a.value).length := by
  have hsize : a.bitLength = Nat.size a.value := Words.bitLength_eq_size a.words
  rw [byteLength, hsize, length_bigEndian]

/-- As many words as the bytes take that are left without the leading zeros. -/
theorem length_digits_toNat (bs : Bytes) :
    (Nat.digits (2 ^ 32) bs.toNat).length = ((bs.dropWhile (· == 0)).length + 3) / 4 := by
  rw [← bigEndian_toNat, length_bigEndian, length_digits (by decide)]
  omega

/-- A number as it is read from a byte string: the words are its digits, as many of them as there are
groups of four bytes behind the leading zeros, and hold every byte in its place. -/
structure ReadFrom (a : Natural) (bs : Bytes) : Prop where
  value : a.value = bs.toNat
  digits : a.words.map UInt32.toNat = Nat.digits (2 ^ 32) bs.toNat
  size : a.size = ((bs.dropWhile (· == 0)).length + 3) / 4
  scattered : a.words ++ List.replicate (capacity - a.size) 0 =
    Words.scatter (bs.dropWhile (· == 0)).reverse 0 (List.replicate capacity 0)
  /-- Written in as many bytes again the number is the same byte string. -/
  written : a.toBytes bs.length = .ok bs

/-- What a number is written as into a buffer: its bytes behind as many zeros as there is room for,
which is what the buffer holds after the bytes were put there one by one. -/
structure WrittenAs (a : Natural) (buffer out : Bytes) : Prop where
  padded : out = List.replicate (buffer.length - (bigEndian a.value).length) 0 ++ bigEndian a.value
  overwritten : out = Words.overwrite a.words (bigEndian a.value).length buffer
  /-- The number is read back. -/
  read : ofBytes out = .ok a

/-- A number that has the value of a byte string is the one that is read from it. -/
theorem readFrom_of_value (h : a.value = bs.toNat) : a.ReadFrom bs where
  value := h
  digits := h ▸ map_words a
  size := by
    rw [size, ← length_digits_toNat, ← h, ← map_words, List.length_map]
  scattered := by
    have hdigits : Bytes.toNat (bs.dropWhile (· == 0)) = bs.toNat := by
      rw [← bigEndian_toNat, toNat_bigEndian]
    have hsize : (bs.dropWhile (· == 0)).length ≤ 4 * capacity := by
      have hfits := a.length_le
      have hwords := length_digits_toNat bs
      rw [← h, ← map_words, List.length_map] at hwords
      omega
    have hempty : Words.value (List.replicate capacity 0) < 256 ^ 0 := by
      rw [Words.value_replicate_zero]
      exact Nat.one_pos
    have hroom : 0 + (bs.dropWhile (· == 0)).reverse.length ≤
        4 * (List.replicate capacity (0 : UInt32)).length := by
      rw [List.length_reverse, List.length_replicate]
      omega
    apply Words.eq_of_value_eq
    · have hfits := a.length_le
      rw [Words.length_scatter, List.length_append, List.length_replicate, List.length_replicate,
        size]
      omega
    · rw [Words.value_append, Words.value_replicate_zero, Words.value_scatter hroom hempty,
        Words.value_replicate_zero, List.reverse_reverse, hdigits, ← h]
      simp [Natural.value]
  written := by
    have hfits : a.byteLength ≤ bs.length := by
      rw [byteLength_eq, h, length_bigEndian_le_iff]
      exact toNat_lt bs
    rw [toBytes_eq_ok hfits, h, ofNat_toNat]

/-- A number that fits into a buffer is written into all of it. -/
theorem writtenAs_of_lt (h : a.value < 256 ^ buffer.length) :
    a.WrittenAs buffer (Bytes.ofNat buffer.length a.value) where
  padded := ofNat_eq_padded h
  overwritten := by
    have hwhole : a.value < 256 ^ (bigEndian a.value).length :=
      length_bigEndian_le_iff.1 (Nat.le_refl _)
    rw [Words.overwrite_eq _ (length_bigEndian_le_iff.2 h), ofNat_eq_padded h]
    change _ = _ ++ Bytes.ofNat _ a.value
    rw [ofNat_eq_padded hwhole, Nat.sub_self, List.replicate_zero, List.nil_append]
  read := by
    have hvalue : a.value = (Bytes.ofNat buffer.length a.value).toNat := by
      rw [toNat_ofNat, Nat.mod_eq_of_lt h]
    exact (ofBytes_exact _).eq_ok_iff.2 hvalue

/-- Reading and writing big-endian bytes are exact. A byte string is read if its number is below
`2 ^ 4096`, however long it is, and written again it is the same. A number is written wherever it has
room, whatever was there before, and read again it is the same; where it has none, the bytes that it
takes are reported and nothing is written. -/
theorem bytes_exact (bs buffer : Bytes) (a : Natural) :
    (if bs.toNat < 2 ^ 4096 then ∃ b, ofBytes bs = .ok b ∧ b.ReadFrom bs
      else ofBytes bs =
        .error (.capacityExceeded (((bs.dropWhile (· == 0)).length + 3) / 4))) ∧
    (if a.value < 256 ^ buffer.length then
        ∃ out, a.toBytes buffer.length = .ok out ∧ a.writeBytes buffer = (.ok (), out) ∧
          a.WrittenAs buffer out
      else ∃ fault, fault = .bufferTooSmall (bigEndian a.value).length buffer.length ∧
        a.toBytes buffer.length = .error fault ∧ a.writeBytes buffer = (.error fault, buffer)) := by
  constructor
  · have hexact := ofBytes_exact bs
    generalize ofBytes bs = answer at hexact
    cases hexact with
    | fits hlt hvalue =>
      rw [if_pos hlt]
      exact ⟨_, rfl, readFrom_of_value hvalue⟩
    | exceeds hle => rw [if_neg (Nat.not_lt.2 hle), length_digits_toNat]
  · split
    · rename_i hlt
      have hfits : a.byteLength ≤ buffer.length := by
        rwa [byteLength_eq, length_bigEndian_le_iff]
      have hbytes := toBytes_eq_ok hfits
      refine ⟨_, hbytes, ?_, writtenAs_of_lt hlt⟩
      rw [writeBytes, hbytes]
    · rename_i hlong
      have hshort : a.byteLength > buffer.length := by
        rw [byteLength_eq]
        exact Nat.not_le.1 (mt length_bigEndian_le_iff.1 hlong)
      have hfault : a.toBytes buffer.length =
          .error (.bufferTooSmall (bigEndian a.value).length buffer.length) := by
        rw [toBytes, if_pos hshort, byteLength_eq]
      refine ⟨_, rfl, hfault, ?_⟩
      rw [writeBytes, hfault]

/-- Five bytes with leading zeros, and a number that its buffer is too short for. -/
example : ofBytes [0, 0, 1, 2, 3] = .ok (ofWord 0x010203) ∧
    (ofWord 0x010203).writeBytes [9, 9] = (.error (.bufferTooSmall 3 2), [9, 9]) := by
  decide

end Natural
end TlsClient
