import TlsClient.Natural.Octets
import TlsClient.Proofs.Bytes
import TlsClient.Proofs.Natural.Words

namespace TlsClient

namespace Words

/-- Four bytes in a row are the digits of one word. -/
theorem value_ofLittleEndian (bs : Bytes) : value (ofLittleEndian bs) = Bytes.toNat bs.reverse := by
  have hword (group : Bytes) (h : group.length ≤ 4) :
      (UInt32.ofNat (Bytes.toNat group)).toNat = Bytes.toNat group := by
    have hlt : Bytes.toNat group < 2 ^ 32 :=
      Nat.lt_of_lt_of_le (Bytes.toNat_lt group) (Nat.pow_le_pow_right (by decide) h)
    rw [UInt32.toNat_ofNat', Nat.mod_eq_of_lt hlt]
  induction bs using ofLittleEndian.induct with
  | case1 a b c d rest ih =>
    have hgroup := hword [d, c, b, a] (by simp)
    have hreverse : (a :: b :: c :: d :: rest).reverse = rest.reverse ++ [d, c, b, a] := by simp
    have hweight : 256 ^ [d, c, b, a].length = UInt32.size := by simp [UInt32.size]
    rw [ofLittleEndian, value, ih, hgroup, hreverse, Bytes.toNat_append, hweight, Nat.add_comm]
  | case2 => rfl
  | case3 rest hlong hne =>
    have hshort : rest.length ≤ 4 := by
      rcases rest with _ | ⟨a, _ | ⟨b, _ | ⟨c, _ | ⟨d, rest⟩⟩⟩⟩
      · simp
      · simp
      · simp
      · simp
      · exact absurd rfl (hlong a b c d rest)
    have hgroup := hword rest.reverse (by rwa [List.length_reverse])
    rw [ofLittleEndian]
    · simp [value, hgroup]
    · exact hlong
    · exact hne

theorem length_toLittleEndian (ws : List UInt32) : (toLittleEndian ws).length = 4 * ws.length := by
  induction ws with
  | nil => rfl
  | cons w ws ih =>
    rw [toLittleEndian] at ih ⊢
    rw [List.flatMap_cons, List.length_append, ih, List.length_reverse, Bytes.length_ofNat,
      List.length_cons]
    omega

theorem toNat_reverse_toLittleEndian (ws : List UInt32) :
    Bytes.toNat (toLittleEndian ws).reverse = value ws := by
  induction ws with
  | nil => rfl
  | cons w ws ih =>
    have hw : w.toNat < 256 ^ 4 := w.toNat_lt
    rw [toLittleEndian] at ih ⊢
    rw [List.flatMap_cons, List.reverse_append, List.reverse_reverse, Bytes.toNat_append, ih,
      Bytes.toNat_ofNat, Nat.mod_eq_of_lt hw, Bytes.length_ofNat, value, UInt32.size]
    omega

end Words

namespace Natural

theorem value_lt (a : Natural) : a.value < 2 ^ (32 * capacity) := by
  have hlt := Words.value_lt a.words
  have hle : 32 * a.words.length ≤ 32 * capacity := Nat.mul_le_mul_left _ a.length_le
  exact Nat.lt_of_lt_of_le hlt (Nat.pow_le_pow_right (by decide) hle)

/-- Words whose value is below the bound are a number, however many they are. -/
theorem ofWords_eq_ok {ws : List UInt32} (h : Words.value ws < 2 ^ (32 * capacity)) :
    ∃ a, ofWords ws = .ok a ∧ a.value = Words.value ws := by
  have hlength := Words.length_le_of_value_lt h
  refine ⟨⟨Words.trim ws, hlength, Words.getLast?_trim_ne ws⟩, ?_, Words.value_trim ws⟩
  rw [ofWords, dif_pos hlength]

/-- Byte strings up to the size of a number are always read. -/
theorem ofBytes_eq_ok {bs : Bytes} (h : bs.length ≤ 4 * capacity) :
    ∃ a, ofBytes bs = .ok a ∧ a.value = bs.toNat := by
  have hvalue := Words.value_ofLittleEndian bs.reverse
  rw [List.reverse_reverse] at hvalue
  have hlt : Words.value (Words.ofLittleEndian bs.reverse) < 2 ^ (32 * capacity) := by
    rw [hvalue]
    calc
      bs.toNat < 256 ^ bs.length := Bytes.toNat_lt bs
      _ = 2 ^ (8 * bs.length) := by rw [Nat.pow_mul]
      _ ≤ 2 ^ (32 * capacity) := Nat.pow_le_pow_right (by decide) (by omega)
  obtain ⟨a, ha, hv⟩ := ofWords_eq_ok hlt
  exact ⟨a, ha, hv.trans hvalue⟩

/-- A number is written wherever there is room for its bytes. -/
theorem toBytes_eq_ok {a : Natural} {len : Nat} (h : a.byteLength ≤ len) :
    a.toBytes len = .ok (Bytes.ofNat len a.value) := by
  have hsize : a.bitLength = Nat.size a.value := Words.bitLength_eq_size a.words
  have hbits : Nat.size a.value ≤ 32 * a.words.length := Nat.size_le.2 (Words.value_lt a.words)
  have hbytes : a.byteLength ≤ (Words.toLittleEndian a.words).length := by
    rw [Words.length_toLittleEndian, byteLength, hsize]
    omega
  have hlt : a.value < 256 ^ a.byteLength := by
    calc
      a.value < 2 ^ Nat.size a.value := Nat.lt_size_self _
      _ ≤ 2 ^ (8 * a.byteLength) := by
        apply Nat.pow_le_pow_right (by decide)
        rw [byteLength, hsize]
        omega
      _ = 256 ^ a.byteLength := by rw [Nat.pow_mul]
  -- The bytes beyond the digits of the number are zero.
  have hdigits : Bytes.toNat ((Words.toLittleEndian a.words).take a.byteLength).reverse
      = a.value := by
    have hall := Words.toNat_reverse_toLittleEndian a.words
    rw [← List.take_append_drop a.byteLength (Words.toLittleEndian a.words), List.reverse_append,
      Bytes.toNat_append, List.length_reverse, List.length_take, Nat.min_eq_left hbytes] at hall
    change _ = a.value at hall
    rcases Nat.eq_zero_or_pos
      (Bytes.toNat ((Words.toLittleEndian a.words).drop a.byteLength).reverse) with hzero | hpos
    · rw [hzero] at hall
      omega
    · have hle := Nat.le_mul_of_pos_right (256 ^ a.byteLength) hpos
      omega
  rw [toBytes, if_neg (Nat.not_lt.2 h)]
  apply congrArg Except.ok
  apply Bytes.eq_ofNat
  · rw [List.length_append, List.length_replicate, List.length_reverse, List.length_take,
      Nat.min_eq_left hbytes]
    omega
  · rw [Bytes.toNat_append, Bytes.toNat_replicate_zero, hdigits]
    omega

end Natural
end TlsClient
