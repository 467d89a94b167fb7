import TlsClient.Message.Handshake
import TlsClient.Message.Record
import TlsClient.Proofs.Bytes

namespace TlsClient

namespace Wire.Parser

variable {α β : Type} {p : Parser α} {f : α → Parser β} {input rest : Bytes}

/-- A sequence reads what its parts read one after the other. -/
theorem bind_eq_ok_iff {b : β} :
    (p >>= f) input = .ok (b, rest) ↔
      ∃ a between, p input = .ok (a, between) ∧ f a between = .ok (b, rest) := by
  -- The second parser is only run on what the first one has left.
  cases h : p input with
  | error e => simp [bind, StateT.bind, Except.bind, h]
  | ok r =>
    obtain ⟨a, between⟩ := r
    have hb : (p >>= f) input = f a between := by simp [bind, StateT.bind, Except.bind, h]
    rw [hb]
    constructor
    · intro hf
      exact ⟨a, between, rfl, hf⟩
    · intro hq
      obtain ⟨_, _, hp, hf⟩ := hq
      cases hp
      exact hf

theorem map_eq_ok_iff {g : α → β} {b : β} :
    (g <$> p) input = .ok (b, rest) ↔ ∃ a, p input = .ok (a, rest) ∧ g a = b := by
  cases h : p input with
  | error e => simp [Functor.map, StateT.map, bind, Except.bind, h]
  | ok r =>
    simp [Functor.map, StateT.map, bind, Except.bind, pure, Except.pure, h]
    grind

theorem pure_eq_ok_iff {a b : α} :
    (pure a : Parser α) input = .ok (b, rest) ↔ a = b ∧ input = rest := by
  have hpure : (pure a : Parser α) input = .ok (a, input) := rfl
  rw [hpure]
  simp

theorem byte_eq_ok_iff {b : UInt8} : byte input = .ok (b, rest) ↔ input = b :: rest := by
  cases input with
  | nil => simp [byte]
  | cons c cs => simp [byte]

theorem number_eq_ok_iff_append {n v : Nat} :
    number n input = .ok (v, rest) ↔ v < 256 ^ n ∧ input = Bytes.ofNat n v ++ rest := by
  rw [number_eq_ok_iff]
  constructor
  · intro h
    obtain ⟨taken, ht, rfl⟩ := h
    obtain ⟨hlen, rfl⟩ := take_eq_ok_iff.1 ht
    exact ⟨Bytes.toNat_lt_of_length hlen, by rw [Bytes.ofNat_toNat_of_length hlen]⟩
  · intro h
    obtain ⟨hv, rfl⟩ := h
    -- The number is small enough to be read as it was written.
    refine ⟨Bytes.ofNat n v, take_eq_ok_iff.2 ⟨Bytes.length_ofNat n v, rfl⟩, ?_⟩
    rw [Bytes.toNat_ofNat, Nat.mod_eq_of_lt hv]

theorem word16_eq_ok_iff {w : UInt16} :
    word16 input = .ok (w, rest) ↔ input = Bytes.ofNat 2 w.toNat ++ rest := by
  rw [word16, map_eq_ok_iff]
  constructor
  · intro h
    obtain ⟨v, hv, rfl⟩ := h
    obtain ⟨hlt, rfl⟩ := number_eq_ok_iff_append.1 hv
    have hw : (UInt16.ofNat v).toNat = v := UInt16.toNat_ofNat_of_lt' hlt
    rw [hw]
  · intro h
    subst h
    exact ⟨w.toNat, number_eq_ok_iff_append.2 ⟨w.toNat_lt, rfl⟩, by simp⟩

end Wire.Parser

open Wire.Parser

namespace ContentType

def Canonical (t : ContentType) : Prop := ofCode t.code = t

instance (t : ContentType) : Decidable t.Canonical := inferInstanceAs (Decidable (_ = _))

theorem canonical_ofCode (v : UInt8) : (ofCode v).Canonical := by
  rw [Canonical, code_ofCode]

end ContentType

namespace ProtocolVersion

def Canonical (v : ProtocolVersion) : Prop := ofCode v.code = v

instance (v : ProtocolVersion) : Decidable v.Canonical := inferInstanceAs (Decidable (_ = _))

theorem canonical_ofCode (v : UInt16) : (ofCode v).Canonical := by
  rw [Canonical, code_ofCode]

end ProtocolVersion

namespace RecordHeader

def toBytes (h : RecordHeader) : Bytes :=
  h.contentType.code :: h.version.toBytes ++ Bytes.ofNat 2 h.length

@[simp] theorem length_toBytes (h : RecordHeader) : h.toBytes.length = byteLength := by
  simp [toBytes, ProtocolVersion.toBytes, byteLength]

/-- The header of a record is read exactly as it is written. -/
theorem parse_eq_ok_iff {input rest : Bytes} {h : RecordHeader} :
    parse input = .ok (h, rest) ↔
      h.contentType.Canonical ∧ h.version.Canonical ∧ h.length < 65536 ∧
        input = h.toBytes ++ rest := by
  simp only [parse, ContentType.parse, ProtocolVersion.parse, bind_eq_ok_iff, map_eq_ok_iff,
    pure_eq_ok_iff, byte_eq_ok_iff, word16_eq_ok_iff, number_eq_ok_iff_append]
  constructor
  · intro hq
    obtain ⟨_, _, ⟨b, rfl, rfl⟩, _, _, ⟨w, rfl, rfl⟩, n, _, ⟨hn, rfl⟩, rfl, rfl⟩ := hq
    -- What a code reads to is written as that code again.
    refine ⟨ContentType.canonical_ofCode b, ProtocolVersion.canonical_ofCode w, hn, ?_⟩
    simp [toBytes, ProtocolVersion.toBytes]
  · intro hq
    obtain ⟨ht, hv, hn, rfl⟩ := hq
    refine ⟨h.contentType, h.version.toBytes ++ (Bytes.ofNat 2 h.length ++ rest),
      ⟨h.contentType.code, ?_, ht⟩, h.version, Bytes.ofNat 2 h.length ++ rest,
      ⟨h.version.code, rfl, hv⟩, h.length, rest, ⟨hn, rfl⟩, rfl, rfl⟩
    simp [toBytes]

/-- Five bytes are a header, whatever they are. -/
theorem exists_header {bs : Bytes} (h : byteLength ≤ bs.length) :
    ∃ header rest, parse bs = .ok (header, rest) ∧ bs.length = byteLength + rest.length := by
  match bs, h with
  | a :: b :: c :: d :: e :: rest, _ =>
    refine ⟨⟨.ofCode a, .ofCode (.ofNat (Bytes.toNat [b, c])), Bytes.toNat [d, e]⟩, rest, rfl, ?_⟩
    simp only [List.length_cons, byteLength]
    omega

/-- Fewer bytes are not. -/
theorem parse_of_short {bs : Bytes} (h : bs.length < byteLength) :
    parse bs = .error (.recoverable .eof) := by
  match bs, h with
  | [], _ => rfl
  | [_], _ => rfl
  | [_, _], _ => rfl
  | [_, _, _], _ => rfl
  | [_, _, _, _], _ => rfl

end RecordHeader

namespace Record

def header (r : Record) : RecordHeader := ⟨r.contentType, r.version, r.fragment.length⟩

theorem toBytes_eq (r : Record) : r.toBytes = r.header.toBytes ++ r.fragment := by
  simp [toBytes, header, RecordHeader.toBytes]

theorem length_toBytes (r : Record) :
    r.toBytes.length = RecordHeader.byteLength + r.fragment.length := by
  rw [toBytes_eq, List.length_append, RecordHeader.length_toBytes]

/-- Reading gives exactly what was written, for records within the limit on their length. -/
theorem parse_eq_ok_iff {input rest : Bytes} {r : Record} :
    parse input = .ok (r, rest) ↔
      r.contentType.Canonical ∧ r.version.Canonical ∧ r.fragment.length ≤ maxCiphertext ∧
        input = r.toBytes ++ rest := by
  simp only [parse, bind_eq_ok_iff, RecordHeader.parse_eq_ok_iff]
  constructor
  · intro hq
    obtain ⟨h, between, ⟨ht, hv, -, rfl⟩, hr⟩ := hq
    split at hr
    · cases hr
    · rename_i hlen
      simp only [bind_eq_ok_iff, take_eq_ok_iff, pure_eq_ok_iff] at hr
      obtain ⟨fragment, _, ⟨hf, rfl⟩, rfl, rfl⟩ := hr
      -- The header announces the fragment that was taken.
      refine ⟨ht, hv, by simp only [hf]; omega, ?_⟩
      simp [toBytes_eq, header, hf]
  · intro hq
    obtain ⟨ht, hv, hlen, rfl⟩ := hq
    have hlen' : ¬ r.header.length > maxCiphertext := Nat.not_lt.2 hlen
    refine ⟨r.header, r.fragment ++ rest, ⟨ht, hv, ?_, by simp [toBytes_eq]⟩, ?_⟩
    · exact Nat.lt_of_le_of_lt hlen (by decide)
    · rw [if_neg hlen']
      simp only [bind_eq_ok_iff, take_eq_ok_iff, pure_eq_ok_iff]
      exact ⟨r.fragment, rest, ⟨rfl, rfl⟩, rfl, rfl⟩

end Record

end TlsClient
