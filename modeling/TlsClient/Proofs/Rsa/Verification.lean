import TlsClient.Proofs.Der.Encoding
import TlsClient.Proofs.Natural.Arithmetic
import TlsClient.Proofs.Rsa.Recovery
import TlsClient.Rsa.Signature

namespace TlsClient

/-- Cutting a list gives the two parts that it consists of. -/
theorem exists_splitAt {α : Type} (xs : List α) {n : ℕ} (h : n ≤ xs.length) :
    ∃ front back, xs.splitAt n = (front, back) ∧ front.length = n ∧ back.length = xs.length - n ∧
      xs = front ++ back := by
  refine ⟨xs.take n, xs.drop n, List.splitAt_eq .., ?_, List.length_drop,
    (List.take_append_drop n xs).symm⟩
  rw [List.length_take, Nat.min_eq_left h]

namespace PublicKey

/-- The block of `k` bytes that stands for a digest of 32 bytes. -/
def encoding (k : ℕ) (digest : Bytes) : Bytes :=
  [0x00, 0x01] ++ List.replicate (k - 54) 0xff ++ [0x00] ++ digestInfo ++ digest

theorem length_encoding {k : ℕ} {digest : Bytes} (hdigest : digest.length = 32) (hk : 54 ≤ k) :
    (encoding k digest).length = k := by
  have hinfo : digestInfo.length = 19 := rfl
  simp only [encoding, List.length_append, List.length_replicate, List.length_cons,
    List.length_nil, hinfo, hdigest]
  omega

/-- The bytes in front of a digest are those that DER writes there, for a sequence of the algorithm
SHA-256 without parameters and an octet string. -/
theorem digestInfo_append {digest : Bytes} (hdigest : digest.length = 32) :
    digestInfo ++ digest =
      (Der.Value.sequence [
        Der.Value.sequence [⟨0x06, [0x60, 0x86, 0x48, 0x01, 0x65, 0x03, 0x04, 0x02, 0x01]⟩, ⟨0x05, []⟩],
        ⟨0x04, digest⟩]).toBytes := by
  have hstring : Der.Value.toBytes ⟨0x04, digest⟩ = 0x04 :: 0x20 :: digest := by
    rw [Der.Value.toBytes, hdigest]
    rfl
  rw [Der.Value.sequence, List.flatMap_cons, List.flatMap_singleton, hstring, Der.Value.toBytes,
    List.length_append, List.length_cons, List.length_cons, hdigest]
  rfl

/-- The five parts that a block is cut into fill it. -/
theorem exists_parts {digest block : Bytes} (hdigest : digest.length = 32)
    (hlong : 62 ≤ block.length) :
    ∃ header filler separator info hash : Bytes,
      header.length = 2 ∧ filler.length = block.length - 54 ∧ separator.length = 1 ∧
      info.length = 19 ∧ hash.length = 32 ∧
      block = header ++ filler ++ separator ++ info ++ hash ∧
      standsFor digest block = (header == [0x00, 0x01] && filler.all (· == 0xff) &&
        separator == [0x00] && info == digestInfo && hash == digest) := by
  have hprefix : digestInfo.length = 19 := rfl
  have htotal : 3 + 19 + digest.length = 54 := by rw [hdigest]
  have hroom : ¬ block.length - 54 < 8 := by omega
  -- Each cut takes its part off the front of what the one before has left.
  obtain ⟨header, rest₁, hcut₁, hheader, hrest₁, hblock⟩ :=
    exists_splitAt block (n := 2) (by omega)
  obtain ⟨filler, rest₂, hcut₂, hfiller, hrest₂, hfilled⟩ :=
    exists_splitAt rest₁ (n := block.length - 54) (by omega)
  obtain ⟨separator, rest₃, hcut₃, hseparator, hrest₃, hseparated⟩ :=
    exists_splitAt rest₂ (n := 1) (by omega)
  obtain ⟨info, hash, hcut₄, hinfo, hhash, hended⟩ :=
    exists_splitAt rest₃ (n := 19) (by omega)
  refine ⟨header, filler, separator, info, hash, hheader, hfiller, hseparator, hinfo, by omega, ?_,
    ?_⟩
  · rw [hblock, hfilled, hseparated, hended]
    simp only [List.append_assoc]
  · simp only [standsFor, hprefix, htotal, if_neg hroom, hcut₁, hcut₂, hcut₃, hcut₄]

/-- There is one block of a length that stands for a digest. -/
theorem standsFor_iff {digest block : Bytes} (hdigest : digest.length = 32) :
    standsFor digest block = true ↔
      62 ≤ block.length ∧ block = encoding block.length digest := by
  by_cases hlong : 62 ≤ block.length
  · obtain ⟨header, filler, separator, info, hash, hheader, hfiller, hseparator, hinfo, hhash, hparts,
      hstands⟩ := exists_parts hdigest hlong
    rw [hstands]
    simp only [Bool.and_eq_true, beq_iff_eq, List.all_eq_true]
    constructor
    · rintro ⟨⟨⟨⟨rfl, hall⟩, rfl⟩, rfl⟩, rfl⟩
      have hpadding : filler = List.replicate (block.length - 54) 0xff :=
        List.eq_replicate_iff.2 ⟨hfiller, hall⟩
      refine ⟨hlong, ?_⟩
      rw [encoding, ← hpadding]
      exact hparts
    · rintro ⟨-, hencoding⟩
      -- Parts of the same lengths in two equal blocks are the same, from the last one on.
      have hall := hencoding.symm.trans hparts
      obtain ⟨hall, hhash⟩ := List.append_inj' hall (hdigest.trans hhash.symm)
      obtain ⟨hall, hinfo⟩ := List.append_inj' hall hinfo.symm
      obtain ⟨hall, hseparator⟩ := List.append_inj' hall hseparator.symm
      obtain ⟨hheader, hfiller⟩ := List.append_inj hall hheader.symm
      refine ⟨⟨⟨⟨hheader.symm, ?_⟩, hseparator.symm⟩, hinfo.symm⟩, hhash.symm⟩
      intro b hb
      rw [← hfiller] at hb
      exact List.eq_of_mem_replicate hb
  · have hprefix : digestInfo.length = 19 := rfl
    have hshort : block.length - (3 + digestInfo.length + digest.length) < 8 := by omega
    rw [standsFor, if_pos hshort]
    constructor
    · exact nofun
    · rintro ⟨hlong', -⟩
      exact absurd hlong' hlong

/-- A signature is good for a digest if and only if the digest has 32 bytes, the key has at least 62,
the signature has as many bytes as the key and is smaller than the modulus, and its power is the
number of the block for the digest. What the block ends with is the DER encoding of the algorithm
SHA-256 and the digest. A signature is good for one digest at most. -/
theorem verify_exact (key : PublicKey) (digest signature : Bytes) :
    (key.verify digest signature = true ↔
      digest.length = 32 ∧ 62 ≤ key.byteLength ∧ signature.length = key.byteLength ∧
      signature.toNat < key.modulus.value ∧
      signature.toNat ^ key.exponent.value % key.modulus.value =
        Bytes.toNat ([0x00, 0x01] ++ List.replicate (key.byteLength - 54) 0xff ++ [0x00] ++
          digestInfo ++ digest)) ∧
    (digest.length = 32 → digestInfo ++ digest =
      (Der.Value.sequence [
        Der.Value.sequence [⟨0x06, [0x60, 0x86, 0x48, 0x01, 0x65, 0x03, 0x04, 0x02, 0x01]⟩, ⟨0x05, []⟩],
        ⟨0x04, digest⟩]).toBytes) ∧
    ∀ digest', key.verify digest signature = true → key.verify digest' signature = true →
      digest' = digest := by
  have hiff (digest : Bytes) : key.verify digest signature = true ↔ digest.length = 32 ∧
      62 ≤ key.byteLength ∧ signature.length = key.byteLength ∧
      signature.toNat < key.modulus.value ∧
      signature.toNat ^ key.exponent.value % key.modulus.value =
        (encoding key.byteLength digest).toNat := by
    unfold verify
    by_cases hlengths : signature.length = key.byteLength ∧ digest.length = 32
    · obtain ⟨hsignature, hdigest⟩ := hlengths
      obtain ⟨s, hs, hvalue⟩ := Natural.ofBytes_eq_ok (hsignature.le.trans key.byteLength_le)
      obtain ⟨block, hraise, hblock, hpower⟩ := key.exists_raise hsignature
      rw [if_pos ⟨hsignature, hdigest⟩, hs, hraise]
      dsimp only
      rw [Bool.and_eq_true, Natural.less_iff, hvalue, standsFor_iff hdigest, hblock, ← hpower]
      constructor
      · rintro ⟨hsmaller, hlong, hencoding⟩
        exact ⟨hdigest, hlong, hsignature, hsmaller, congrArg Bytes.toNat hencoding⟩
      · rintro ⟨-, hlong, -, hsmaller, hsame⟩
        have hlength := length_encoding hdigest (Nat.le_trans (by decide) hlong)
        exact ⟨hsmaller, hlong, Bytes.toNat_injective (hblock.trans hlength.symm) hsame⟩
    · rw [if_neg hlengths]
      constructor
      · exact nofun
      · rintro ⟨hdigest, -, hsignature, -⟩
        exact absurd ⟨hsignature, hdigest⟩ hlengths
  refine ⟨hiff digest, digestInfo_append, fun digest' h h' => ?_⟩
  obtain ⟨hdigest, hlong, -, -, hpower⟩ := (hiff digest).1 h
  obtain ⟨hdigest', -, -, -, hpower'⟩ := (hiff digest').1 h'
  have hroom : 54 ≤ key.byteLength := Nat.le_trans (by decide) hlong
  have hlength := length_encoding hdigest hroom
  have hlength' := length_encoding hdigest' hroom
  have hsame : encoding key.byteLength digest' = encoding key.byteLength digest :=
    Bytes.toNat_injective (hlength'.trans hlength.symm) (hpower'.symm.trans hpower)
  exact (List.append_inj' hsame (hdigest'.trans hdigest.symm)).2

def signingKey : PublicKey where
  modulus := ⟨[524079351, 3509783209, 3436591642, 1967739053, 3498036551, 3355940038, 1769857906,
    3908433377, 3564798823, 1982134801, 1396848339, 183725645, 2254042838, 4117337101, 2677445411,
    55149], by decide, by decide⟩
  exponent := ⟨[3], by decide, by decide⟩
  exponent_ne_zero := rfl
  exponent_less := by decide

def countingSignature : Bytes :=
  [0x13, 0xcf, 0x07, 0x9b, 0xb8, 0x3c, 0xe0, 0x12, 0x44, 0x62, 0x63, 0xa5, 0xcb, 0x8c, 0x5c, 0x66,
    0xf4, 0xa5, 0xd5, 0x46, 0x2d, 0x57, 0xb7, 0xc9, 0x5e, 0xd3, 0x9d, 0x67, 0x96, 0x50, 0xf4, 0x81,
    0x23, 0xe2, 0x75, 0xba, 0x5f, 0x11, 0x30, 0xcd, 0x57, 0xc0, 0x4e, 0x30, 0xe9, 0x81, 0xe6, 0x7a,
    0xfb, 0x00, 0x76, 0x73, 0x71, 0x9b, 0x0c, 0x07, 0x11, 0xbf, 0x7f, 0xab, 0x9c, 0xfd]

/-- The signature is good for these bytes, and not if the last one is another. -/
theorem counting_verified :
    signingKey.verify ((List.range 32).map UInt8.ofNat) countingSignature = true ∧
    signingKey.verify ((List.range 31).map UInt8.ofNat ++ [0]) countingSignature = false := by
  obtain ⟨hiff, -, honly⟩ := verify_exact signingKey ((List.range 32).map UInt8.ofNat) countingSignature
  have hverified := hiff.2 (by decide +kernel)
  refine ⟨hverified, Bool.eq_false_iff.2 fun hother => ?_⟩
  exact absurd (honly _ hverified hother) (by decide)

end PublicKey
end TlsClient
