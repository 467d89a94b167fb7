import TlsClient.Der.CertificateKey
import TlsClient.Proofs.Der.Encoding
import TlsClient.Proofs.Natural.Arithmetic
import TlsClient.Proofs.Rsa.Recovery

namespace TlsClient

namespace PublicKey

def Is (key : PublicKey) (n e : Nat) : Prop :=
  key.modulus.value = n ∧ key.exponent.value = e

def Allowed (n e : Nat) : Prop :=
  0 < e ∧ e < n ∧ n < 2 ^ 4096

theorem Is.allowed {key : PublicKey} {n e : Nat} (h : key.Is n e) : Allowed n e := by
  obtain ⟨rfl, rfl⟩ := h
  have hzero : ¬ key.exponent.value = 0 := by
    rw [← Natural.isZero_iff, key.exponent_ne_zero]
    exact Bool.false_ne_true
  exact ⟨Nat.pos_of_ne_zero hzero, (Natural.less_iff _ _).1 key.exponent_less,
    key.modulus.value_lt_two_pow⟩

/-- A key is made from two byte strings exactly if it has the numbers that they denote. -/
theorem ofBytes_eq_ok_iff {modulus exponent : Bytes} {key : PublicKey} :
    ofBytes modulus exponent = .ok key ↔ key.Is modulus.toNat exponent.toNat := by
  rw [ofBytes, except_bind_eq_ok_iff]
  simp only [except_bind_eq_ok_iff, mapError_eq_ok_iff, (Natural.ofBytes_exact _).eq_ok_iff]
  constructor
  · rintro ⟨n, hn, e, he, h⟩
    split at h
    · cases h
    · split at h
      · cases h
        exact ⟨hn, he⟩
      · cases h
  · rintro ⟨hn, he⟩
    have hallowed : Allowed modulus.toNat exponent.toNat := Is.allowed ⟨hn, he⟩
    have hnonzero : ¬ key.modulus.isZero = true := by
      rw [Natural.isZero_iff, hn]
      have := hallowed.2.1
      omega
    refine ⟨key.modulus, hn, key.exponent, he, ?_⟩
    rw [if_neg hnonzero, dif_pos ⟨key.exponent_ne_zero, key.exponent_less⟩]

/-- The bounds on the two numbers are all that a key needs. -/
theorem Allowed.exists_is {n e : Nat} (h : Allowed n e) : ∃ key : PublicKey, key.Is n e := by
  obtain ⟨hpos, hless, hlt⟩ := h
  obtain ⟨n, rfl⟩ := Natural.exists_value hlt
  obtain ⟨e, rfl⟩ := Natural.exists_value (hless.trans hlt)
  have hzero : e.isZero = false := by
    rw [← Bool.not_eq_true, Natural.isZero_iff]
    exact Nat.ne_of_gt hpos
  exact ⟨⟨n, e, hzero, (Natural.less_iff _ _).2 hless⟩, rfl, rfl⟩

end PublicKey

namespace Der

namespace Tag

def code? : Tag → Option UInt8
  | .boolean => some 0x01
  | .integer => some 0x02
  | .bitString => some 0x03
  | .octetString => some 0x04
  | .null => some 0x05
  | .objectIdentifier => some 0x06
  | .utf8String => some 0x0C
  | .printableString => some 0x13
  | .utcTime => some 0x17
  | .generalizedTime => some 0x18
  | .sequence => some 0x30
  | .set => some 0x31
  | .contextSpecific _ | .unknown _ => none

theorem ofCode_eq_iff {t : Tag} {c v : UInt8} (h : t.code? = some c) : ofCode v = t ↔ v = c := by
  constructor
  · rintro rfl
    unfold ofCode at h
    split at h
    -- A tag without a name has no code; all others stand for one byte only.
    case h_13 => split at h <;> cases h
    all_goals
      cases h
      rfl
  · rintro rfl
    cases t with
    | contextSpecific number => cases h
    | unknown code => cases h
    | _ =>
      cases h
      rfl

end Tag

namespace Value

theorem tag_eq_iff {v : Value} {t : Tag} {c : UInt8} (h : t.code? = some c) :
    v.tag = t ↔ v.code = c :=
  Tag.ofCode_eq_iff h

/-- A value is of the expected kind if its tag byte is the one of that kind. -/
theorem expect_eq_ok_iff {v : Value} {t : Tag} {c : UInt8} (h : t.code? = some c) :
    v.expect t = .ok () ↔ v.code = c := by
  rw [← tag_eq_iff h, expect]
  split <;> simp_all

theorem isConstructed_of_sequence {v : Value} (h : v.code = 0x30) : v.isConstructed = true := by
  rw [isConstructed, h]
  rfl

theorem childItems_of_sequence {v : Value} (h : v.code = 0x30) : v.childItems = items v.content :=
  if_pos (isConstructed_of_sequence h)

/-- The children of a sequence are the values that fill its content. -/
theorem children_of_sequence {v : Value} (h : v.code = 0x30) {vs : List Value} :
    v.children = .ok vs ↔ Row vs v.content :=
  children_eq_ok_iff (isConstructed_of_sequence h)

/-! ### The parts of a certificate -/

/-- Whether a value is a sequence that starts with a sequence that starts with the object identifier of
RSA encryption. -/
def IsRsaKeyInfo (v : Value) : Prop :=
  v.code = 0x30 ∧ ∃ algorithm : Value, algorithm.Leads v.content ∧ algorithm.code = 0x30 ∧
    Leads ⟨0x06, rsaEncryption⟩ algorithm.content

theorem firstChild?_eq_some_iff {v c : Value} (h : v.code = 0x30) :
    v.firstChild? = some c ↔ c.Leads v.content := by
  rw [← items_eq_cons_iff, firstChild?, childItems_of_sequence h]
  split
  · rename_i d tail hitems
    rw [hitems]
    simp [eq_comm]
  · rename_i hother
    constructor
    · exact nofun
    · rintro ⟨tail, htail⟩
      exact absurd htail (hother c tail)

/-- The search for the key information looks for what `IsRsaKeyInfo` says, and for nothing more. -/
theorem isRsaKeyInfo_iff {v : Value} : v.isRsaKeyInfo = true ↔ v.IsRsaKeyInfo := by
  rw [isRsaKeyInfo, IsRsaKeyInfo, Bool.and_eq_true, decide_eq_true_iff, tag_eq_iff rfl]
  apply and_congr_right
  intro hv
  constructor
  · intro h
    split at h
    · cases h
    · rename_i algorithm halgorithm
      rw [Bool.and_eq_true, decide_eq_true_iff, tag_eq_iff rfl] at h
      obtain ⟨hsequence, h⟩ := h
      split at h
      · cases h
      · rename_i identifier hidentifier
        rw [Bool.and_eq_true, decide_eq_true_iff, decide_eq_true_iff, tag_eq_iff rfl] at h
        obtain ⟨code, content⟩ := identifier
        obtain ⟨rfl, rfl⟩ := h
        exact ⟨algorithm, (firstChild?_eq_some_iff hv).1 halgorithm,
          hsequence, (firstChild?_eq_some_iff hsequence).1 hidentifier⟩
  · rintro ⟨algorithm, halgorithm, hsequence, hidentifier⟩
    rw [(firstChild?_eq_some_iff hv).2 halgorithm]
    dsimp only
    rw [(firstChild?_eq_some_iff hsequence).2 hidentifier,
      Bool.and_eq_true, decide_eq_true_iff, tag_eq_iff rfl]
    exact ⟨hsequence, rfl⟩

instance (v : Value) : Decidable v.IsRsaKeyInfo :=
  decidable_of_iff _ isRsaKeyInfo_iff

/-- The first key information of a row is found, and no earlier element is one. -/
theorem find?_isRsaKeyInfo_iff {vs : List Value} {info : Value} :
    vs.find? (·.isRsaKeyInfo) = some info ↔ info.IsRsaKeyInfo ∧ ∃ before after,
      vs = before ++ info :: after ∧ ∀ v ∈ before, ¬ v.IsRsaKeyInfo := by
  rw [List.find?_eq_some_iff_append, isRsaKeyInfo_iff]
  simp only [Bool.not_eq_true', ← Bool.not_eq_true, isRsaKeyInfo_iff]

def Denotes (v : Value) (n : Nat) : Prop :=
  v.code = 0x02 ∧ (∃ b rest, v.content = b :: rest ∧ b < 0x80) ∧ Bytes.toNat v.content = n

theorem denotes_integer (n : Nat) : (integer n).Denotes n := by
  obtain ⟨b, rest, hcontent, hsign, hn⟩ := integer_content n
  exact ⟨rfl, ⟨b, rest, hcontent, hsign⟩, hn⟩

/-- An INTEGER is accepted if and only if it denotes a number that is not negative. -/
theorem unsignedInteger_eq_ok_iff {v : Value} {n : Nat} :
    (∃ magnitude, v.unsignedInteger = .ok magnitude ∧ magnitude.toNat = n) ↔ v.Denotes n := by
  constructor
  · rintro ⟨magnitude, h, rfl⟩
    obtain ⟨_, hcode, h⟩ := except_bind_eq_ok_iff.1 h
    refine ⟨(expect_eq_ok_iff rfl).1 hcode, ?_⟩
    split at h
    · cases h
    · rename_i b rest hcontent
      split at h
      · cases h
      · rename_i hsign
        refine ⟨⟨b, rest, hcontent, UInt8.not_le.1 hsign⟩, ?_⟩
        rw [hcontent]
        split at h
        · -- A leading zero does not change what the bytes denote.
          rename_i hzero
          cases h
          rw [hzero.1]
          rfl
        · cases h
          rfl
  · rintro ⟨hcode, ⟨b, rest, hcontent, hsign⟩, hn⟩
    have hexpect : v.expect .integer = .ok () := (expect_eq_ok_iff rfl).2 hcode
    have hpositive : ¬ b ≥ 0x80 := UInt8.not_le.2 hsign
    rw [hcontent] at hn
    by_cases hzero : b = 0 ∧ rest ≠ []
    · refine ⟨rest, except_bind_eq_ok_iff.2 ⟨(), hexpect, ?_⟩, ?_⟩
      · rw [hcontent]
        dsimp only
        rw [if_neg hpositive, if_pos hzero]
      · rw [← hn, hzero.1]
        rfl
    · refine ⟨b :: rest, except_bind_eq_ok_iff.2 ⟨(), hexpect, ?_⟩, hn⟩
      rw [hcontent]
      dsimp only
      rw [if_neg hpositive, if_neg hzero]

/-- A bit string is only accepted with whole bytes. -/
theorem bitString_eq_ok_iff {v : Value} {payload : Bytes} :
    v.bitString = .ok payload ↔ v = ⟨0x03, 0 :: payload⟩ := by
  rw [bitString, except_bind_eq_ok_iff]
  constructor
  · rintro ⟨_, hcode, h⟩
    obtain ⟨code, content⟩ := v
    obtain rfl : code = 0x03 := (expect_eq_ok_iff rfl).1 hcode
    split at h
    · rename_i rest hcontent
      cases h
      exact congrArg (Value.mk 0x03) hcontent
    · cases h
  · rintro rfl
    exact ⟨(), rfl, rfl⟩

/-- Whether key information holds an RSA key with modulus `n` and exponent `e`: it has two elements,
and the second is a bit string of whole bytes, which are a sequence of the two numbers. -/
inductive HoldsKey (info : Value) (n e : Nat) : Prop
  | intro {algorithm modulus exponent : Value} {payload numbers : Bytes}
    (elements : Row [algorithm, ⟨0x03, 0 :: payload⟩] info.content)
    (sequence : EncodedAs ⟨0x30, numbers⟩ payload) (pair : Row [modulus, exponent] numbers)
    (hmodulus : modulus.Denotes n) (hexponent : exponent.Denotes e)

/-- A key is found in key information exactly if it holds one that is allowed. -/
theorem rsaKey_eq_ok_iff {info : Value} (hinfo : info.code = 0x30) {key : PublicKey} :
    info.rsaKey = .ok key ↔ ∃ n e, info.HoldsKey n e ∧ key.Is n e := by
  rw [rsaKey, except_bind_eq_ok_iff]
  constructor
  · rintro ⟨elements, helements, hrest⟩
    rw [children_of_sequence hinfo] at helements
    split at hrest
    · rename_i algorithm bits
      -- From here on each step of the reader opens one more layer.
      obtain ⟨payload, hbits, hpayload⟩ := except_bind_eq_ok_iff.1 hrest
      obtain ⟨⟨code, numbers⟩, hexact, hsequence⟩ := except_bind_eq_ok_iff.1 hpayload
      obtain ⟨_, hcode, hnumbers⟩ := except_bind_eq_ok_iff.1 hsequence
      obtain ⟨pair, hpair, hmatch⟩ := except_bind_eq_ok_iff.1 hnumbers
      have hcode : code = 0x30 := (expect_eq_ok_iff rfl).1 hcode
      rw [children_of_sequence hcode] at hpair
      split at hmatch
      · obtain ⟨modulus, hmodulus, hmore⟩ := except_bind_eq_ok_iff.1 hmatch
        obtain ⟨exponent, hexponent, hkey⟩ := except_bind_eq_ok_iff.1 hmore
        refine ⟨modulus.toNat, exponent.toNat, ?_, PublicKey.ofBytes_eq_ok_iff.1 hkey⟩
        rw [bitString_eq_ok_iff.1 hbits] at helements
        exact .intro helements (parseExact_eq_ok_iff.1 (hcode ▸ hexact)) hpair
          (unsignedInteger_eq_ok_iff.1 ⟨modulus, hmodulus, rfl⟩)
          (unsignedInteger_eq_ok_iff.1 ⟨exponent, hexponent, rfl⟩)
      · cases hmatch
    · cases hrest
  · rintro ⟨n, e, @⟨algorithm, modulus, exponent, payload, numbers, helements, hsequence, hpair,
      hmodulus, hexponent⟩, hkey⟩
    obtain ⟨m, hm, rfl⟩ := unsignedInteger_eq_ok_iff.2 hmodulus
    obtain ⟨x, hx, rfl⟩ := unsignedInteger_eq_ok_iff.2 hexponent
    refine ⟨_, (children_of_sequence hinfo).2 helements, ?_⟩
    refine except_bind_eq_ok_iff.2 ⟨payload, bitString_eq_ok_iff.2 rfl, ?_⟩
    refine except_bind_eq_ok_iff.2 ⟨_, parseExact_eq_ok_iff.2 hsequence, ?_⟩
    refine except_bind_eq_ok_iff.2 ⟨(), rfl, ?_⟩
    refine except_bind_eq_ok_iff.2 ⟨_, (children_of_sequence rfl).2 hpair, ?_⟩
    refine except_bind_eq_ok_iff.2 ⟨m, hm, ?_⟩
    exact except_bind_eq_ok_iff.2 ⟨x, hx, PublicKey.ofBytes_eq_ok_iff.2 hkey⟩

end Value

open Value

/-- Whether a certificate holds an RSA key with modulus `n` and exponent `e`: it is a sequence that
starts with a sequence, its body, and the first element of the body that is the key information of an
RSA key holds that key. -/
inductive CertifiesKey (certificate : Bytes) (n e : Nat) : Prop
  | intro {content elements : Bytes} {before after : List Value} {info : Value}
    (outer : EncodedAs ⟨0x30, content⟩ certificate) (body : Leads ⟨0x30, elements⟩ content)
    (row : Row (before ++ info :: after) elements) (earlier : ∀ v ∈ before, ¬ v.IsRsaKeyInfo)
    (found : info.IsRsaKeyInfo) (key : info.HoldsKey n e)

/-- A key is found in a certificate exactly if the certificate holds it. -/
theorem certificateKey_eq_ok_iff {certificate : Bytes} {key : PublicKey} :
    certificateKey certificate = .ok key ↔ ∃ n e, CertifiesKey certificate n e ∧ key.Is n e := by
  rw [certificateKey, except_bind_eq_ok_iff]
  constructor
  · rintro ⟨⟨code, content⟩, houter, hrest⟩
    obtain ⟨_, hcode, hitems⟩ := except_bind_eq_ok_iff.1 hrest
    obtain rfl : code = 0x30 := (expect_eq_ok_iff rfl).1 hcode
    split at hitems
    · cases hitems
    · cases hitems
    · rename_i body tail hfirst
      obtain ⟨code, elements⟩ := body
      obtain ⟨_, hcode', hbody⟩ := except_bind_eq_ok_iff.1 hitems
      obtain ⟨row, hrow, hsearch⟩ := except_bind_eq_ok_iff.1 hbody
      have hcode' : code = 0x30 := (expect_eq_ok_iff rfl).1 hcode'
      rw [children_of_sequence hcode'] at hrow
      rw [childItems_of_sequence rfl, hcode'] at hfirst
      split at hsearch
      · cases hsearch
      · rename_i info hfind
        obtain ⟨hfound, before, after, rfl, hearlier⟩ := find?_isRsaKeyInfo_iff.1 hfind
        obtain ⟨n, e, hkey, his⟩ := (rsaKey_eq_ok_iff hfound.1).1 hsearch
        exact ⟨n, e, .intro (parseExact_eq_ok_iff.1 houter) (items_eq_cons_iff.1 ⟨tail, hfirst⟩) hrow
          hearlier hfound hkey, his⟩
  · rintro ⟨n, e, @⟨content, elements, before, after, info, houter, hbody, hrow, hearlier, hfound,
      hkey⟩, his⟩
    -- Behind the body the certificate may be malformed, so only its first item is known.
    obtain ⟨tail, hitems⟩ := items_eq_cons_iff.2 hbody
    refine ⟨_, parseExact_eq_ok_iff.2 houter, ?_⟩
    refine except_bind_eq_ok_iff.2 ⟨(), rfl, ?_⟩
    rw [childItems_of_sequence rfl, hitems]
    refine except_bind_eq_ok_iff.2 ⟨(), rfl, ?_⟩
    refine except_bind_eq_ok_iff.2 ⟨_, (children_of_sequence rfl).2 hrow, ?_⟩
    rw [find?_isRsaKeyInfo_iff.2 ⟨hfound, before, after, rfl, hearlier⟩]
    exact (rsaKey_eq_ok_iff hfound.1).2 ⟨n, e, hkey, his⟩

/-- No certificate of an allowed key is refused. -/
theorem CertifiesKey.exists_key {certificate : Bytes} {n e : Nat} (h : CertifiesKey certificate n e)
    (hallowed : PublicKey.Allowed n e) : ∃ key, certificateKey certificate = .ok key ∧ key.Is n e := by
  obtain ⟨key, hkey⟩ := hallowed.exists_is
  exact ⟨key, certificateKey_eq_ok_iff.2 ⟨n, e, h, hkey⟩, hkey⟩

/-! ### Written certificates -/

/-- What the certificate of an RSA key consists of: elements of the body before and behind the key
information, the parameters of the algorithm, the key, and what follows the body. -/
structure Certificate where
  before : List Value
  parameters : List Value
  modulus : Nat
  exponent : Nat
  after : List Value
  signature : List Value

namespace Certificate

def algorithm (c : Certificate) : Value :=
  sequence (⟨0x06, rsaEncryption⟩ :: c.parameters)

def pair (c : Certificate) : Value :=
  sequence [integer c.modulus, integer c.exponent]

def keyInfo (c : Certificate) : Value :=
  sequence [c.algorithm, ⟨0x03, 0 :: c.pair.toBytes⟩]

def body (c : Certificate) : Value :=
  sequence (c.before ++ c.keyInfo :: c.after)

def value (c : Certificate) : Value :=
  sequence (c.body :: c.signature)

def toBytes (c : Certificate) : Bytes :=
  c.value.toBytes

/-- Whether all tags and lengths can be written, the key can be used, and no other element of the body
is taken for the key information. -/
structure Proper (c : Certificate) : Prop where
  low : ∀ v ∈ c.before ++ c.after, v.code &&& 0x1F ≠ 0x1F
  short : c.value.content.length < 2 ^ 32
  earlier : ∀ v ∈ c.before, ¬ v.IsRsaKeyInfo
  allowed : PublicKey.Allowed c.modulus c.exponent

variable {c : Certificate}

/-- A certificate that is written as it should be holds its key. -/
theorem Proper.certifiesKey (h : c.Proper) : CertifiesKey c.toBytes c.modulus c.exponent := by
  -- Each value is within the one before it, and the outermost is short enough.
  have hvalue : c.value.Writable := ⟨low_sequence _, h.short⟩
  have hbody : c.body.Writable := hvalue.of_mem List.mem_cons_self (low_sequence _)
  have hinfo : c.keyInfo.Writable := hbody.of_mem (by simp) (low_sequence _)
  have halgorithm : c.algorithm.Writable := hinfo.of_mem (by simp) (low_sequence _)
  have hbits : Writable ⟨0x03, 0 :: c.pair.toBytes⟩ :=
    hinfo.of_mem (by simp) (by decide : (0x03 : UInt8) &&& 0x1F ≠ 0x1F)
  have hpair : c.pair.Writable := by
    refine ⟨low_sequence _, Nat.lt_of_le_of_lt ?_ hbits.short⟩
    rw [Value.toBytes, List.length_cons, List.length_cons, List.length_append]
    omega
  have hmodulus : (integer c.modulus).Writable := hpair.of_mem (by simp) (low_integer _)
  have hexponent : (integer c.exponent).Writable := hpair.of_mem (by simp) (low_integer _)
  have hidentifier : Writable ⟨0x06, rsaEncryption⟩ := ⟨by decide, by decide⟩
  have helement : ∀ v ∈ c.before ++ c.keyInfo :: c.after, v.Writable := by
    intro v hv
    apply hbody.of_mem hv
    rcases List.mem_append.1 hv with hbefore | hrest
    · exact h.low v (List.mem_append_left _ hbefore)
    · rcases List.mem_cons.1 hrest with rfl | hafter
      · exact low_sequence _
      · exact h.low v (List.mem_append_right _ hafter)
  refine .intro hvalue.encodedAs (leads_sequence hbody _) (row_flatMap helement) h.earlier
    ⟨rfl, c.algorithm, leads_sequence halgorithm _, rfl, leads_sequence hidentifier _⟩ ?_
  have hboth : ∀ v ∈ [integer c.modulus, integer c.exponent], v.Writable :=
    List.forall_mem_cons.2 ⟨hmodulus, List.forall_mem_singleton.2 hexponent⟩
  have hparts : ∀ v ∈ [c.algorithm, ⟨0x03, 0 :: c.pair.toBytes⟩], v.Writable :=
    List.forall_mem_cons.2 ⟨halgorithm, List.forall_mem_singleton.2 hbits⟩
  exact .intro (row_flatMap hparts) hpair.encodedAs (row_flatMap hboth) (denotes_integer _)
    (denotes_integer _)

end Certificate

/-- The key of a certificate is read if the certificate has the right form and the key is allowed, and
not otherwise; what is read is the modulus and the exponent that the certificate has. In particular
that is so for each certificate that is written in this form. -/
theorem certificateKey_exact (certificate : Bytes) :
    ((∃ key, certificateKey certificate = .ok key) ↔
      ∃ n e, CertifiesKey certificate n e ∧ 0 < e ∧ e < n ∧ n < 2 ^ 4096) ∧
    (∀ key, certificateKey certificate = .ok key ↔
      ∃ n e, CertifiesKey certificate n e ∧ (0 < e ∧ e < n ∧ n < 2 ^ 4096) ∧
        key.modulus.value = n ∧ key.exponent.value = e ∧ key.bits = Nat.size n) ∧
    ∀ c : Certificate, c.Proper → certificate = c.toBytes → ∃ key,
      certificateKey certificate = .ok key ∧ key.modulus.value = c.modulus ∧
      key.exponent.value = c.exponent ∧ key.bits = Nat.size c.modulus := by
  have hbits {key : PublicKey} {n e : Nat} (h : key.Is n e) : key.bits = Nat.size n := by
    rw [PublicKey.bits_eq_size, h.1]
  refine ⟨⟨?_, ?_⟩, fun key => ⟨?_, ?_⟩, ?_⟩
  · rintro ⟨key, h⟩
    obtain ⟨n, e, hcertifies, hkey⟩ := certificateKey_eq_ok_iff.1 h
    exact ⟨n, e, hcertifies, hkey.allowed⟩
  · rintro ⟨n, e, hcertifies, hallowed⟩
    obtain ⟨key, h, -⟩ := hcertifies.exists_key hallowed
    exact ⟨key, h⟩
  · intro h
    obtain ⟨n, e, hcertifies, hkey⟩ := certificateKey_eq_ok_iff.1 h
    exact ⟨n, e, hcertifies, hkey.allowed, hkey.1, hkey.2, hbits hkey⟩
  · rintro ⟨n, e, hcertifies, -, hn, he, -⟩
    exact certificateKey_eq_ok_iff.2 ⟨n, e, hcertifies, hn, he⟩
  · rintro c hc rfl
    obtain ⟨key, h, hkey⟩ := hc.certifiesKey.exists_key hc.allowed
    exact ⟨key, h, hkey.1, hkey.2, hbits hkey⟩

/-- A certificate with a modulus of 1031 bits. It names the algorithm of its signature before the
algorithm of its key, and most of its lengths take the long form. -/
def sampleCertificate : Certificate where
  before := [⟨0xA0, [0x02, 0x01, 0x02]⟩, integer 66,
    sequence [⟨0x06, [0x2A, 0x86, 0x48, 0x86, 0xF7, 0x0D, 0x01, 0x01, 0x0B]⟩, ⟨0x05, []⟩],
    sequence [], sequence [], sequence []]
  parameters := [⟨0x05, []⟩]
  modulus := 2 ^ 1030 + 3
  exponent := 65537
  after := [⟨0xA3, (sequence []).toBytes⟩]
  signature := [
    sequence [⟨0x06, [0x2A, 0x86, 0x48, 0x86, 0xF7, 0x0D, 0x01, 0x01, 0x0B]⟩, ⟨0x05, []⟩],
    ⟨0x03, List.replicate 130 0⟩]

theorem sampleCertificate_proper : sampleCertificate.Proper where
  low := by decide
  short := by decide +kernel
  earlier := by decide +kernel
  allowed := by
    unfold PublicKey.Allowed
    decide +kernel

/-- The key of the sample is read out of it, with all of its 1031 bits. -/
theorem sampleCertificate_key : ∃ key,
    certificateKey sampleCertificate.toBytes = .ok key ∧ key.modulus.value = 2 ^ 1030 + 3 ∧
    key.exponent.value = 65537 ∧ key.bits = 1031 := by
  obtain ⟨key, h, hmodulus, hexponent, hbits⟩ := (certificateKey_exact
    sampleCertificate.toBytes).2.2 sampleCertificate sampleCertificate_proper rfl
  have hsize : Nat.size (2 ^ 1030 + 3) = 1031 := by decide +kernel
  exact ⟨key, h, hmodulus, hexponent, hbits.trans hsize⟩

end Der
end TlsClient
