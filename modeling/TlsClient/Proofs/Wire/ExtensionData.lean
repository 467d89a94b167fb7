import TlsClient.Proofs.Wire.Bodies

/-!
The data of the two extensions that a client offers. What is written is read back, whatever follows it.
What is read is not always what would be written: the length of a list of names is not compared with
the name in it, and an odd byte at the end of a list of schemes is passed over. Everything else in the
data is checked, so these are the only differences: `payloads_read`.
-/

namespace TlsClient

open Wire.Parser

/-- Text is read from its own bytes only. -/
theorem fromUTF8?_eq_some_iff {bs : ByteArray} {s : String} :
    String.fromUTF8? bs = some s ↔ s.toUTF8 = bs := by
  rw [String.fromUTF8?]
  constructor
  · intro h
    split at h
    · cases h
      rfl
    · cases h
  · rintro rfl
    exact dif_pos s.isValidUTF8

namespace ServerName

variable {input rest : Bytes} {n : ServerName}

/-- Bytes that are read as a name are its bytes. -/
theorem hostBytes_eq_iff {name : Bytes} :
    String.fromUTF8? ⟨name.toArray⟩ = some n.host ↔ name = n.hostBytes := by
  rw [fromUTF8?_eq_some_iff, hostBytes]
  constructor
  · intro h
    rw [h]
  · rintro rfl
    rfl

/-- A name is read behind any length of the list, and from exactly its bytes. -/
theorem parse_eq_ok_iff :
    parse input = .ok (n, rest) ↔
      ∃ listLength < 65536, n.hostBytes.length < 65536 ∧
        input = Bytes.ofNat 2 listLength ++
          ([0] ++ Bytes.ofNat 2 n.hostBytes.length ++ n.hostBytes ++ rest) := by
  simp only [parse, bind_eq_ok_iff, number_eq_ok_iff_append, byte_eq_ok_iff]
  constructor
  · rintro ⟨listLength, _, ⟨hlist, rfl⟩, kind, _, rfl, h⟩
    split at h
    · cases h
    · rename_i hkind
      obtain rfl : kind = 0 := not_not.1 hkind
      obtain ⟨name, _, hname, hread⟩ := bind_eq_ok_iff.1 h
      obtain ⟨hlength, rfl⟩ := block_eq_ok_iff.1 hname
      rcases hhost : String.fromUTF8? ⟨name.toArray⟩ with _ | host
      · rw [hhost] at hread
        cases hread
      · rw [hhost] at hread
        obtain ⟨rfl, rfl⟩ := pure_eq_ok_iff.1 hread
        obtain rfl := hostBytes_eq_iff.1 hhost
        exact ⟨listLength, hlist, hlength, rfl⟩
  · rintro ⟨listLength, hlist, hlength, rfl⟩
    refine ⟨listLength, _, ⟨hlist, rfl⟩, 0, _, rfl, ?_⟩
    rw [if_neg (not_not.2 rfl)]
    refine bind_eq_ok_iff.2 ⟨n.hostBytes, rest, block_eq_ok_iff.2 ⟨hlength, rfl⟩, ?_⟩
    rw [hostBytes_eq_iff.2 rfl]
    rfl

/-- A host is read back from the extension, whatever follows it. -/
theorem parse_toBytes_append (hlength : n.hostBytes.length < 65536) (rest : Bytes) :
    parse (n.toBytes ++ rest) = .ok (n, rest) := by
  have hlist : Bytes.ofNat 2 (n.hostBytes.length + 3) =
      Bytes.ofNat 2 ((n.hostBytes.length + 3) % 65536) :=
    Bytes.eq_ofNat (Bytes.length_ofNat 2 _) (Bytes.toNat_ofNat 2 _)
  refine parse_eq_ok_iff.2 ⟨(n.hostBytes.length + 3) % 65536, Nat.mod_lt _ (by decide), hlength, ?_⟩
  rw [← hlist, toBytes]
  simp only [List.append_assoc]

/-- What was read is what would be written if the length of the list is the right one. -/
theorem toBytes_append_eq_iff (h : parse input = .ok (n, rest)) :
    n.toBytes ++ rest = input ↔
      Bytes.toNat (input.take 2) = (n.hostBytes.length + 3) % 65536 := by
  obtain ⟨listLength, -, -, rfl⟩ := parse_eq_ok_iff.1 h
  have hwritten : n.toBytes ++ rest = Bytes.ofNat 2 (n.hostBytes.length + 3) ++
      ([0] ++ Bytes.ofNat 2 n.hostBytes.length ++ n.hostBytes ++ rest) := by
    rw [toBytes]
    simp only [List.append_assoc]
  have hvalue : Bytes.toNat (Bytes.ofNat 2 (n.hostBytes.length + 3)) =
      (n.hostBytes.length + 3) % 65536 := Bytes.toNat_ofNat 2 _
  rw [hwritten, List.append_left_inj, List.take_left' (Bytes.length_ofNat 2 _), ← hvalue]
  constructor
  · intro heq
    rw [heq]
  · intro heq
    exact Bytes.toNat_injective (by rw [Bytes.length_ofNat, Bytes.length_ofNat]) heq.symm

end ServerName

namespace SignatureScheme

@[simp] theorem code_ofCode (v : UInt16) : (ofCode v).code = v := by
  rw [code, ofCode, HashAlgorithm.code_ofCode, SignatureAlgorithm.code_ofCode]
  apply UInt16.toNat_inj.1
  have hlt := v.toNat_lt
  simp only [UInt16.toUInt16_toUInt8, UInt16.toNat_add, UInt16.toNat_shiftLeft, UInt16.toNat_mod,
    UInt16.toNat_shiftRight, UInt16.reduceToNat, Nat.reduceMod, Nat.reducePow, Nat.mod_add_mod]
  omega

def Canonical (s : SignatureScheme) : Prop := ofCode s.code = s

instance (s : SignatureScheme) : Decidable s.Canonical := inferInstanceAs (Decidable (_ = _))

theorem parse_eq_ok_iff {input rest : Bytes} {s : SignatureScheme} :
    parse input = .ok (s, rest) ↔ s.Canonical ∧ input = s.toBytes ++ rest :=
  ofCode_eq_ok_iff word16_eq_ok_iff code_ofCode

@[simp] theorem length_toBytes (s : SignatureScheme) : s.toBytes.length = 2 :=
  Bytes.length_ofNat 2 _

theorem codec : Codec parse toBytes Canonical where
  eq_ok_iff := parse_eq_ok_iff
  write_ne_nil s := List.ne_nil_of_length_pos (by rw [length_toBytes]; decide)
  nil := rfl

theorem length_flatMap (schemes : List SignatureScheme) :
    (schemes.flatMap toBytes).length = 2 * schemes.length := by
  induction schemes with
  | nil => rfl
  | cons s schemes ih =>
    rw [List.flatMap_cons, List.length_append, length_toBytes, ih, List.length_cons]
    omega

/-- A list of schemes ends where there are no two bytes more. -/
theorem endsAt_iff {left : Bytes} : EndsAt parse left ↔ left.length ≤ 1 := by
  match left with
  | [] => exact ⟨fun _ => Nat.zero_le 1, fun _ => ⟨.eof, rfl⟩⟩
  | [_] => exact ⟨fun _ => Nat.le_refl 1, fun _ => ⟨.eof, rfl⟩⟩
  | a :: b :: more =>
    constructor
    · rintro ⟨code, hcode⟩
      cases hcode
    · intro h
      simp at h

end SignatureScheme

namespace SignatureAlgorithms

variable {input rest : Bytes} {a : SignatureAlgorithms}

/-- Schemes are read from exactly their codes, with a byte more or without. -/
theorem parse_eq_ok_iff :
    parse input = .ok (a, rest) ↔
      a.schemes.length ≤ places ∧ (∀ s ∈ a.schemes, s.Canonical) ∧
        ∃ odd, odd.length ≤ 1 ∧ input = Bytes.ofNat 2 (2 * a.schemes.length + odd.length) ++
          (a.schemes.flatMap SignatureScheme.toBytes ++ odd ++ rest) := by
  simp only [parse, bind_eq_ok_iff, block_eq_ok_iff]
  constructor
  · rintro ⟨list, _, ⟨hlength, rfl⟩, h⟩
    rcases hmany : many0 SignatureScheme.parse places list with e | ⟨schemes, odd⟩
    · rw [hmany] at h
      cases h
    · rw [hmany] at h
      obtain ⟨rfl, rfl⟩ := pure_eq_ok_iff.1 h
      obtain ⟨hplaces, hall, rfl, hend⟩ := SignatureScheme.codec.many0_eq_ok_iff_append.1 hmany
      refine ⟨hplaces, hall, odd, SignatureScheme.endsAt_iff.1 hend, ?_⟩
      rw [List.length_append, SignatureScheme.length_flatMap, List.append_assoc]
  · rintro ⟨hplaces, hall, odd, hodd, rfl⟩
    have hlength : (a.schemes.flatMap SignatureScheme.toBytes ++ odd).length =
        2 * a.schemes.length + odd.length := by
      rw [List.length_append, SignatureScheme.length_flatMap]
    refine ⟨a.schemes.flatMap SignatureScheme.toBytes ++ odd, rest, ⟨?_, ?_⟩, ?_⟩
    · rw [hlength]
      change _ ≤ 8 at hplaces
      omega
    · rw [hlength]
      simp only [List.append_assoc]
    · have hmany := SignatureScheme.codec.many0_eq_ok_iff_append.2
        ⟨hplaces, hall, rfl, SignatureScheme.endsAt_iff.2 hodd⟩
      rw [hmany]
      rfl

/-- A list of schemes is read back, whatever follows it. -/
theorem parse_toBytes_append (hplaces : a.schemes.length ≤ places)
    (hall : ∀ s ∈ a.schemes, s.Canonical) (rest : Bytes) :
    parse (a.toBytes ++ rest) = .ok (a, rest) := by
  refine parse_eq_ok_iff.2 ⟨hplaces, hall, [], Nat.zero_le 1, ?_⟩
  rw [toBytes, List.append_nil, List.append_assoc]
  rfl

/-- What was read is what would be written if the length of the list is even. -/
theorem toBytes_append_eq_iff (h : parse input = .ok (a, rest)) :
    a.toBytes ++ rest = input ↔ 2 ∣ Bytes.toNat (input.take 2) := by
  obtain ⟨hplaces, -, odd, hodd, rfl⟩ := parse_eq_ok_iff.1 h
  have hbound : 2 * a.schemes.length + odd.length < 65536 := by
    change _ ≤ 8 at hplaces
    omega
  have hvalue : Bytes.toNat (Bytes.ofNat 2 (2 * a.schemes.length + odd.length)) =
      2 * a.schemes.length + odd.length :=
    (Bytes.toNat_ofNat 2 _).trans (Nat.mod_eq_of_lt hbound)
  rw [List.take_left' (Bytes.length_ofNat 2 _), hvalue, toBytes]
  constructor
  · intro heq
    have hlength := congrArg List.length heq
    simp only [List.length_append, Bytes.length_ofNat] at hlength
    omega
  · intro heven
    obtain rfl : odd = [] := List.length_eq_zero_iff.1 (by omega)
    simp only [List.length_nil, Nat.add_zero, List.append_nil, List.append_assoc]

end SignatureAlgorithms

/-- What the two parsers make of a byte string, and when it is what would be written. The length of a
list of names may be anything, and it is written as three more than that of the name. A list of schemes
may have an odd byte behind them, which is not written. Nothing else is passed over: the other lengths
are those of what they enclose, and every other byte is part of the value. Names that a length can be
written for and lists of at most eight schemes, each under its own name, are read back. -/
theorem payloads_read (bs rest : Bytes) (n : ServerName) (a : SignatureAlgorithms) :
    (ServerName.parse bs = .ok (n, rest) ↔
      ∃ listLength < 65536, n.hostBytes.length < 65536 ∧
        bs = Bytes.ofNat 2 listLength ++
          ([0] ++ Bytes.ofNat 2 n.hostBytes.length ++ n.hostBytes ++ rest)) ∧
    (ServerName.parse bs = .ok (n, rest) →
      (n.toBytes ++ rest = bs ↔ Bytes.toNat (bs.take 2) = (n.hostBytes.length + 3) % 65536)) ∧
    (n.hostBytes.length < 65536 → ServerName.parse (n.toBytes ++ rest) = .ok (n, rest)) ∧
    (SignatureAlgorithms.parse bs = .ok (a, rest) ↔
      a.schemes.length ≤ 8 ∧ (∀ s ∈ a.schemes, s.Canonical) ∧
        ∃ odd, odd.length ≤ 1 ∧ bs = Bytes.ofNat 2 (2 * a.schemes.length + odd.length) ++
          (a.schemes.flatMap SignatureScheme.toBytes ++ odd ++ rest)) ∧
    (SignatureAlgorithms.parse bs = .ok (a, rest) →
      (a.toBytes ++ rest = bs ↔ 2 ∣ Bytes.toNat (bs.take 2))) ∧
    (a.schemes.length ≤ 8 → (∀ s ∈ a.schemes, s.Canonical) →
      SignatureAlgorithms.parse (a.toBytes ++ rest) = .ok (a, rest)) :=
  ⟨ServerName.parse_eq_ok_iff, ServerName.toBytes_append_eq_iff,
    fun hlength => ServerName.parse_toBytes_append hlength rest,
    SignatureAlgorithms.parse_eq_ok_iff, SignatureAlgorithms.toBytes_append_eq_iff,
    fun hplaces hall => SignatureAlgorithms.parse_toBytes_append hplaces hall rest⟩

/-- A name and a list of two schemes, each with a byte behind it, are read and read back. -/
theorem short_payloads_read :
    ServerName.parse [0, 4, 0, 0, 1, 97, 7] = .ok (⟨"a"⟩, [7]) ∧
    ServerName.toBytes ⟨"a"⟩ ++ [7] = [0, 4, 0, 0, 1, 97, 7] ∧
    SignatureAlgorithms.parse [0, 4, 4, 1, 2, 3, 7] =
      .ok (⟨[.rsaSha256, ⟨.sha1, .ecdsa⟩]⟩, [7]) ∧
    SignatureAlgorithms.toBytes ⟨[.rsaSha256, ⟨.sha1, .ecdsa⟩]⟩ ++ [7] = [0, 4, 4, 1, 2, 3, 7] := by
  obtain ⟨-, hnamed, hnameBack, -⟩ := payloads_read [0, 4, 0, 0, 1, 97, 7] [7] ⟨"a"⟩ ⟨[]⟩
  obtain ⟨-, -, -, -, hlisted, hlistBack⟩ :=
    payloads_read [0, 4, 4, 1, 2, 3, 7] [7] ⟨"a"⟩ ⟨[.rsaSha256, ⟨.sha1, .ecdsa⟩]⟩
  have hparsed : ServerName.parse [0, 4, 0, 0, 1, 97, 7] = _ := hnameBack (by decide)
  have hread : SignatureAlgorithms.parse [0, 4, 4, 1, 2, 3, 7] = _ :=
    hlistBack (by decide) (by decide)
  exact ⟨hparsed, (hnamed hparsed).2 (by decide), hread, (hlisted hread).2 (by decide)⟩

/-- A name behind a length that is not its own and a list with an odd byte are accepted, and written
otherwise. -/
theorem loose_payloads_accepted :
    (∃ n, ServerName.parse [0, 255, 0, 0, 1, 97] = .ok (n, []) ∧
      n.toBytes ++ [] ≠ [0, 255, 0, 0, 1, 97]) ∧
    ∃ a, SignatureAlgorithms.parse [0, 3, 4, 1, 2] = .ok (a, []) ∧
      a.toBytes ++ [] ≠ [0, 3, 4, 1, 2] := by
  refine ⟨⟨⟨"a"⟩, ServerName.parse_eq_ok_iff.2 ⟨255, by decide, by decide, by decide⟩, by decide⟩,
    .rsaSha256, rfl, by decide⟩

end TlsClient
