import TlsClient.Proofs.Wire.Messages
import TlsClient.Proofs.Wire.Repetition

namespace TlsClient

namespace Wire.Parser

variable {α : Type} {input rest : Bytes}

theorem word32_eq_ok_iff {w : UInt32} :
    word32 input = .ok (w, rest) ↔ input = Bytes.ofNat 4 w.toNat ++ rest := by
  rw [word32, map_eq_ok_iff]
  constructor
  · intro h
    obtain ⟨v, hv, rfl⟩ := h
    obtain ⟨hlt, rfl⟩ := number_eq_ok_iff_append.1 hv
    have hw : (UInt32.ofNat v).toNat = v := UInt32.toNat_ofNat_of_lt' hlt
    rw [hw]
  · intro h
    subst h
    exact ⟨w.toNat, number_eq_ok_iff_append.2 ⟨w.toNat_lt, rfl⟩, by simp⟩

theorem block_eq_ok_iff {width : Nat} {bs : Bytes} :
    block width input = .ok (bs, rest) ↔
      bs.length < 256 ^ width ∧ input = Bytes.ofNat width bs.length ++ bs ++ rest := by
  simp only [block, bind_eq_ok_iff, number_eq_ok_iff_append, take_eq_ok_iff]
  constructor
  · intro h
    obtain ⟨n, _, ⟨hn, rfl⟩, rfl, rfl⟩ := h
    exact ⟨hn, (List.append_assoc _ _ _).symm⟩
  · intro h
    obtain ⟨hn, rfl⟩ := h
    exact ⟨bs.length, bs ++ rest, ⟨hn, List.append_assoc _ _ _⟩, rfl, rfl⟩

/-- What reads a string of its own has to use it up. -/
theorem within_eq_ok_iff {p : Parser α} {bs : Bytes} {a : α} :
    within bs p input = .ok (a, rest) ↔ p bs = .ok (a, []) ∧ input = rest := by
  unfold within
  constructor
  · intro h
    split at h
    · rename_i b hp
      obtain ⟨rfl, rfl⟩ := Prod.mk.inj (Except.ok.inj h)
      exact ⟨hp, rfl⟩
    · cases h
    · cases h
  · intro h
    obtain ⟨hp, rfl⟩ := h
    rw [hp]

/-- A choice of what to read first, with the same to follow. -/
theorem ite_bind {β : Type} {c : Prop} [Decidable c] (p q : Parser α) (f : α → Parser β) :
    (if c then p >>= f else q >>= f) = (if c then p else q) >>= f :=
  (apply_ite (· >>= f) c p q).symm

theorem get_eq_ok_iff {bs : Bytes} :
    (get : Parser Bytes) input = .ok (bs, rest) ↔ bs = input ∧ rest = input := by
  have hget : (get : Parser Bytes) input = .ok (input, input) := rfl
  rw [hget]
  constructor
  · intro h
    obtain ⟨rfl, rfl⟩ := Prod.mk.inj (Except.ok.inj h)
    exact ⟨rfl, rfl⟩
  · rintro ⟨rfl, rfl⟩
    rfl

theorem byte_eq_ok_iff_append {b : UInt8} : byte input = .ok (b, rest) ↔ input = [b] ++ rest :=
  byte_eq_ok_iff

/-- A code point is read off the code that it is written as. What a code reads to is written as that
code again, so a value is read exactly if its own code reads to it. -/
theorem ofCode_eq_ok_iff {κ : Type} {p : Parser κ} {write : κ → Bytes} {ofCode : κ → α} {code : α → κ}
    (hp : ∀ {input rest : Bytes} {c : κ}, p input = .ok (c, rest) ↔ input = write c ++ rest)
    (hcode : ∀ c, code (ofCode c) = c) {a : α} :
    (ofCode <$> p) input = .ok (a, rest) ↔ ofCode (code a) = a ∧ input = write (code a) ++ rest := by
  rw [map_eq_ok_iff]
  constructor
  · rintro ⟨c, hc, rfl⟩
    rw [hcode]
    exact ⟨rfl, hp.1 hc⟩
  · rintro ⟨ha, hinput⟩
    exact ⟨code a, hp.2 hinput, ha⟩

end Wire.Parser

open Wire.Parser

theorem HelloRandom.parse_eq_ok_iff {input rest : Bytes} {x : HelloRandom} :
    HelloRandom.parse input = .ok (x, rest) ↔ input = x.toBytes ++ rest := by
  simp only [HelloRandom.parse, bind_eq_ok_iff, word32_eq_ok_iff, take_eq_ok_iff, pure_eq_ok_iff]
  constructor
  · intro h
    obtain ⟨time, _, rfl, random, _, ⟨hlength, rfl⟩, rfl, rfl⟩ := h
    rw [HelloRandom.toBytes, Octets.toList_ofBytes hlength, List.append_assoc]
  · intro h
    subst h
    refine ⟨x.time, x.random.toList ++ rest, List.append_assoc _ _ _, x.random.toList, rest,
      ⟨?_, rfl⟩, ?_, rfl⟩
    · rw [Vector.length_toList]
    · rw [Octets.ofBytes_toList]

@[simp] theorem HelloRandom.length_toBytes (x : HelloRandom) : x.toBytes.length = 32 := by
  rw [HelloRandom.toBytes, List.length_append, Bytes.length_ofNat, Vector.length_toList]

/-- An identifier is read exactly as it is written, after its length. -/
theorem SessionId.parse_eq_ok_iff {input rest : Bytes} {id : SessionId} :
    SessionId.parse input = .ok (id, rest) ↔ input = id.toBytes ++ rest := by
  have hnumber (n : Nat) : Bytes.ofNat 1 n = [UInt8.ofNat n] := rfl
  simp only [SessionId.parse, bind_eq_ok_iff, block_eq_ok_iff, hnumber]
  constructor
  · intro h
    obtain ⟨bs, _, ⟨-, rfl⟩, h⟩ := h
    by_cases hle : bs.length ≤ SessionId.maxLength
    · have hread : SessionId.ofBytes bs = .ok ⟨bs, hle⟩ := dif_pos hle
      rw [hread] at h
      obtain ⟨rfl, rfl⟩ := pure_eq_ok_iff.1 h
      rfl
    · have hread : SessionId.ofBytes bs = .error ⟨bs.length⟩ := dif_neg hle
      rw [hread] at h
      cases h
  · intro h
    subst h
    refine ⟨id.bytes, rest, ⟨?_, rfl⟩, ?_⟩
    · exact Nat.lt_of_le_of_lt id.length_le (by decide)
    · have hread : SessionId.ofBytes id.bytes = .ok id := dif_pos id.length_le
      rw [hread]
      rfl

theorem ProtocolVersion.parse_eq_ok_iff {input rest : Bytes} {v : ProtocolVersion} :
    ProtocolVersion.parse input = .ok (v, rest) ↔ v.Canonical ∧ input = v.toBytes ++ rest :=
  ofCode_eq_ok_iff word16_eq_ok_iff ProtocolVersion.code_ofCode

namespace CipherSuite

def Canonical (s : CipherSuite) : Prop := ofCode s.code = s

instance (s : CipherSuite) : Decidable s.Canonical := inferInstanceAs (Decidable (_ = _))

theorem parse_eq_ok_iff {input rest : Bytes} {s : CipherSuite} :
    parse input = .ok (s, rest) ↔ s.Canonical ∧ input = s.toBytes ++ rest :=
  ofCode_eq_ok_iff word16_eq_ok_iff code_ofCode

theorem codec : Codec parse toBytes Canonical where
  eq_ok_iff := parse_eq_ok_iff
  write_ne_nil s := List.ne_nil_of_length_pos (by simp [toBytes])
  nil := rfl

end CipherSuite

namespace CompressionMethod

def Canonical (m : CompressionMethod) : Prop := ofCode m.code = m

instance (m : CompressionMethod) : Decidable m.Canonical := inferInstanceAs (Decidable (_ = _))

theorem parse_eq_ok_iff {input rest : Bytes} {m : CompressionMethod} :
    parse input = .ok (m, rest) ↔ m.Canonical ∧ input = [m.code] ++ rest :=
  ofCode_eq_ok_iff byte_eq_ok_iff_append code_ofCode

theorem codec : Codec parse (fun m => [m.code]) Canonical where
  eq_ok_iff := parse_eq_ok_iff
  write_ne_nil m := List.cons_ne_nil m.code []
  nil := rfl

end CompressionMethod

namespace ExtensionType

def Canonical (t : ExtensionType) : Prop := ofCode t.code = t

instance (t : ExtensionType) : Decidable t.Canonical := inferInstanceAs (Decidable (_ = _))

theorem parse_eq_ok_iff {input rest : Bytes} {t : ExtensionType} :
    parse input = .ok (t, rest) ↔ t.Canonical ∧ input = t.toBytes ++ rest :=
  ofCode_eq_ok_iff word16_eq_ok_iff code_ofCode

end ExtensionType

namespace Extension

/-- An extension is read exactly as it is written, whatever its data is. -/
theorem parse_eq_ok_iff {input rest : Bytes} {e : Extension} :
    parse input = .ok (e, rest) ↔
      (e.kind.Canonical ∧ e.data.length < 65536) ∧ input = e.toBytes ++ rest := by
  simp only [parse, bind_eq_ok_iff, ExtensionType.parse_eq_ok_iff, block_eq_ok_iff, pure_eq_ok_iff]
  constructor
  · intro h
    obtain ⟨kind, _, ⟨hkind, rfl⟩, data, _, ⟨hdata, rfl⟩, rfl, rfl⟩ := h
    refine ⟨⟨hkind, hdata⟩, ?_⟩
    simp only [toBytes, List.append_assoc]
  · intro h
    obtain ⟨⟨hkind, hdata⟩, rfl⟩ := h
    refine ⟨e.kind, Bytes.ofNat 2 e.data.length ++ e.data ++ rest, ⟨hkind, ?_⟩, e.data, rest,
      ⟨hdata, rfl⟩, rfl, rfl⟩
    simp only [toBytes, List.append_assoc]

theorem codec : Codec parse toBytes fun e => e.kind.Canonical ∧ e.data.length < 65536 where
  eq_ok_iff := parse_eq_ok_iff
  write_ne_nil e := List.ne_nil_of_length_pos (by
    simp only [toBytes, ExtensionType.toBytes, List.length_append, Bytes.length_ofNat]
    omega)
  nil := rfl

structure Fits (places : Nat) (es : List Extension) : Prop where
  length_le : es.length ≤ places
  canonical : ∀ e ∈ es, e.kind.Canonical
  length_lt : (es.flatMap toBytes).length < 65536

theorem Fits.data_length_lt {places : Nat} {es : List Extension} (h : Fits places es)
    {e : Extension} (he : e ∈ es) : e.data.length < 65536 := by
  have hle : e.toBytes.length ≤ (es.flatMap toBytes).length := Bytes.length_le_flatMap he
  have hdata : e.data.length ≤ e.toBytes.length := by
    rw [toBytes, List.length_append]
    omega
  exact Nat.lt_of_le_of_lt (Nat.le_trans hdata hle) h.length_lt

/-- A list of extensions is read only from its written form, with no byte left in its block. -/
theorem parseList_eq_ok_iff {places : Nat} {es : List Extension} {input rest : Bytes} :
    parseList places input = .ok (es, rest) ↔ Fits places es ∧ input = listToBytes es ++ rest := by
  simp only [parseList, bind_eq_ok_iff, block_eq_ok_iff, within_eq_ok_iff, codec.many0_eq_ok_iff]
  constructor
  · intro h
    obtain ⟨_, _, ⟨hlength, rfl⟩, ⟨hplaces, hall, rfl⟩, rfl⟩ := h
    exact ⟨⟨hplaces, fun e he => (hall e he).1, hlength⟩, rfl⟩
  · intro h
    obtain ⟨hfits, rfl⟩ := h
    have hall : ∀ e ∈ es, e.kind.Canonical ∧ e.data.length < 65536 :=
      fun e he => ⟨hfits.canonical e he, hfits.data_length_lt he⟩
    exact ⟨es.flatMap toBytes, rest, ⟨hfits.length_lt, rfl⟩, ⟨hfits.length_le, hall, rfl⟩, rfl⟩

/-- Even an empty list has its length. -/
theorem listToBytes_ne_nil (es : List Extension) : listToBytes es ≠ [] :=
  List.ne_nil_of_length_pos (by
    simp only [listToBytes, List.length_append, Bytes.length_ofNat]
    omega)

end Extension

namespace ServerHello

structure Writable (h : ServerHello) : Prop where
  version : h.version.Canonical
  suite : CipherSuite.ofCode h.suite.code = h.suite
  compression : CompressionMethod.ofCode h.compression.code = h.compression
  extensions : ∀ es, h.extensions = some es → es.length ≤ extensionPlaces ∧
    (∀ e ∈ es, e.kind.Canonical) ∧ (∀ e ∈ es, e.data.length < 65536) ∧
    (es.flatMap Extension.toBytes).length < 65536

theorem Writable.fits {h : ServerHello} (hw : h.Writable) {es : List Extension}
    (he : h.extensions = some es) : Extension.Fits extensionPlaces es := by
  obtain ⟨hplaces, hkind, -, htotal⟩ := hw.extensions es he
  exact ⟨hplaces, hkind, htotal⟩

/-- How a hello ends: there may be no extensions at all. -/
def writtenExtensions : Option (List Extension) → Bytes
  | none => []
  | some es => Extension.listToBytes es

theorem toBytes_eq (h : ServerHello) :
    h.toBytes = h.version.toBytes ++ (h.random.toBytes ++ (h.sessionId.toBytes ++
      (h.suite.toBytes ++ ([h.compression.code] ++ writtenExtensions h.extensions)))) := by
  rw [toBytes]
  simp only [List.append_assoc]
  rfl

/-- Whether there are extensions is told by whether anything is left. -/
theorem extensions_eq_ok_iff {input : Bytes} {extensions : Option (List Extension)} :
    (if input.isEmpty then pure none else some <$> Extension.parseList extensionPlaces :
        Wire.Parser (Option (List Extension))) input = .ok (extensions, []) ↔
      (∀ es, extensions = some es → Extension.Fits extensionPlaces es) ∧
        input = writtenExtensions extensions := by
  cases extensions with
  | none =>
    by_cases hempty : input = []
    · subst hempty
      exact ⟨fun _ => ⟨nofun, rfl⟩, fun _ => rfl⟩
    · have hfalse : input.isEmpty = false := List.isEmpty_eq_false_iff.2 hempty
      rw [hfalse]
      constructor
      · intro h
        obtain ⟨_, -, hsome⟩ := map_eq_ok_iff.1 h
        cases hsome
      · intro h
        exact absurd h.2 hempty
  | some es =>
    have hread : (some <$> Extension.parseList extensionPlaces) input = .ok (some es, []) ↔
        Extension.Fits extensionPlaces es ∧ input = Extension.listToBytes es := by
      rw [map_eq_ok_iff]
      constructor
      · rintro ⟨es', h, hes⟩
        obtain rfl := Option.some.inj hes
        obtain ⟨hfits, hinput⟩ := Extension.parseList_eq_ok_iff.1 h
        exact ⟨hfits, hinput.trans (List.append_nil _)⟩
      · rintro ⟨hfits, hinput⟩
        exact ⟨es, Extension.parseList_eq_ok_iff.2 ⟨hfits, hinput.trans (List.append_nil _).symm⟩,
          rfl⟩
    by_cases hempty : input = []
    · subst hempty
      have hne : [] ≠ Extension.listToBytes es := (Extension.listToBytes_ne_nil es).symm
      exact ⟨nofun, fun h => absurd h.2 hne⟩
    · have hfalse : input.isEmpty = false := List.isEmpty_eq_false_iff.2 hempty
      rw [hfalse]
      refine hread.trans (and_congr_left' ⟨?_, fun h => h es rfl⟩)
      intro hfits es' hes
      exact Option.some.inj hes ▸ hfits

/-- A hello that is read to the end is the written form of what it reads to. -/
theorem parse_eq_ok_iff {input : Bytes} {h : ServerHello} :
    parse input = .ok (h, []) ↔ h.Writable ∧ input = h.toBytes := by
  simp only [parse, ite_bind, bind_eq_ok_iff, get_eq_ok_iff, pure_eq_ok_iff,
    ProtocolVersion.parse_eq_ok_iff, HelloRandom.parse_eq_ok_iff, SessionId.parse_eq_ok_iff,
    CipherSuite.parse_eq_ok_iff, CompressionMethod.parse_eq_ok_iff]
  constructor
  · intro hp
    obtain ⟨version, _, ⟨hversion, rfl⟩, random, _, rfl, sessionId, _, rfl, suite, _, ⟨hsuite, rfl⟩,
      compression, _, ⟨hcompression, rfl⟩, _, _, ⟨rfl, rfl⟩, extensions, _, hextensions, rfl, rfl⟩ :=
      hp
    obtain ⟨hfits, rfl⟩ := extensions_eq_ok_iff.1 hextensions
    have hbytes := toBytes_eq ⟨version, random, sessionId, suite, compression, extensions⟩
    refine ⟨⟨hversion, hsuite, hcompression, fun es he => ?_⟩, hbytes.symm⟩
    have hes := hfits es he
    exact ⟨hes.length_le, hes.canonical, fun e he => hes.data_length_lt he, hes.length_lt⟩
  · rintro ⟨hw, rfl⟩
    have hextensions := extensions_eq_ok_iff.2 ⟨fun es he => hw.fits he, rfl⟩
    exact ⟨h.version, _, ⟨hw.version, toBytes_eq h⟩, h.random, _, rfl, h.sessionId, _, rfl, h.suite,
      _, ⟨hw.suite, rfl⟩, h.compression, _, ⟨hw.compression, rfl⟩, _, _, ⟨rfl, rfl⟩, h.extensions,
      _, hextensions, rfl, rfl⟩

/-- A hello that can be written is read back. -/
theorem parse_toBytes {h : ServerHello} (hw : h.Writable) : parse h.toBytes = .ok (h, []) :=
  parse_eq_ok_iff.2 ⟨hw, rfl⟩

/-- A hello that was read begins with its version and its random value. -/
theorem eq_of_parse {input : Bytes} {h : ServerHello} (hp : parse input = .ok (h, [])) :
    ∃ rest, input = h.version.toBytes ++ h.random.toBytes ++ rest := by
  have hinput : input = h.toBytes := (parse_eq_ok_iff.1 hp).2
  rw [toBytes_eq, ← List.append_assoc] at hinput
  exact ⟨_, hinput⟩

end ServerHello

end TlsClient
