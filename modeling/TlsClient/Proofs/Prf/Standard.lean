import TlsClient.Proofs.Record.Secrets
import TlsClient.Proofs.Sha256.Digest

namespace TlsClient

namespace Hmac.Standard

def zeroPadded (bs : Bytes) : Bytes :=
  List.ofFn fun i : Fin 64 => bs.getD i 0

def blockKey (hash : Bytes → Bytes) (key : Bytes) : Bytes :=
  zeroPadded (if key.length ≤ 64 then key else hash key)

def innerPad : Bytes :=
  List.replicate 64 0x36

def outerPad : Bytes :=
  List.replicate 64 0x5c

def code (hash : Bytes → Bytes) (key message : Bytes) : Bytes :=
  hash (Bytes.xor (blockKey hash key) outerPad ++
    hash (Bytes.xor (blockKey hash key) innerPad ++ message))

end Hmac.Standard

namespace Prf.Standard

variable (code : Bytes → Bytes) (seed : Bytes)

/-- The inputs `A(0)`, `A(1)`, …, each one the code of the one before. -/
def input : ℕ → Bytes
  | 0 => seed
  | i + 1 => code (input i)

/-- The first `n` codes of the sequence, that of `A(1)` and the seed in front. -/
def expansion (n : ℕ) : Bytes :=
  (List.range' 1 n).flatMap fun i => code (input code seed i ++ seed)

end Prf.Standard

namespace Hmac

theorem zeroPadded_eq {bs : Bytes} (h : bs.length ≤ 64) :
    Standard.zeroPadded bs = bs ++ List.replicate (64 - bs.length) 0 := by
  apply List.ext_getElem
  · simp [Standard.zeroPadded, h]
  · intro i _ _
    simp only [Standard.zeroPadded, List.getElem_ofFn, List.getElem_append]
    split
    · rename_i hi
      rw [List.getD_eq_getElem _ _ hi]
    · rename_i hi
      rw [List.getD_eq_default _ _ (Nat.le_of_not_lt hi), List.getElem_replicate]

/-- Long keys are hashed and short ones filled up, as the standard says. -/
theorem blockKey_eq (key : Bytes) : blockKey key = Standard.blockKey Sha256.hash key := by
  rw [blockKey, Standard.blockKey, Sha256.blockLength]
  by_cases h : key.length ≤ 64
  · rw [if_neg (Nat.not_lt.2 h), if_pos h, zeroPadded_eq h]
  · have hdigest : (Sha256.hash key).length ≤ 64 := by
      rw [Sha256.length_hash]
      decide
    rw [if_pos (Nat.lt_of_not_le h), if_neg h, zeroPadded_eq hdigest]

theorem map_xor (hash : Bytes → Bytes) (key : Bytes) (b : UInt8) :
    (Standard.blockKey hash key).map (· ^^^ b) =
      Bytes.xor (Standard.blockKey hash key) (List.replicate 64 b) := by
  have hlength : (Standard.blockKey hash key).length = 64 := List.length_ofFn
  apply List.ext_getElem
  · simp [hlength]
  · intro i _ _
    simp only [Bytes.xor, List.getElem_map, List.getElem_zipWith, List.getElem_replicate]

theorem foldl_update (m : Hmac) (pieces : List Bytes) :
    pieces.foldl update m = { m with inner := pieces.foldl Sha256.update m.inner } := by
  induction pieces generalizing m with
  | nil => rfl
  | cons piece pieces ih => rw [List.foldl_cons, ih, List.foldl_cons, update]

end Hmac

/-- A hash that is already under way takes pieces in as one message. -/
theorem Sha256.foldl_update (message : Bytes) (pieces : List Bytes) :
    pieces.foldl update (empty.update message) = empty.update (message ++ pieces.flatten) := by
  induction pieces generalizing message with
  | nil => rw [List.foldl_nil, List.flatten_nil, List.append_nil]
  | cons piece pieces ih =>
    rw [List.foldl_cons, update_update, ih, List.flatten_cons, List.append_assoc]

namespace Hmac

/-- The code of a message does not depend on how it is cut up. -/
theorem finish_foldl (key : Bytes) (pieces : List Bytes) :
    (pieces.foldl update (ofKey key)).finish = Standard.code Sha256.hash key pieces.flatten := by
  have hinner := map_xor Sha256.hash key 0x36
  have houter := map_xor Sha256.hash key 0x5c
  rw [foldl_update, ofKey, blockKey_eq, hinner, houter, Sha256.foldl_update, finish,
    Sha256.update_update]
  rfl

theorem finish_update (key message : Bytes) :
    ((ofKey key).update message).finish = Standard.code Sha256.hash key message := by
  have h := finish_foldl key [message]
  rwa [List.flatten_singleton] at h

end Hmac

namespace Prf

variable {code : Bytes → Bytes} {seed : Bytes}

theorem length_expansion (hcode : ∀ message, (code message).length = 32) (n : ℕ) :
    (Standard.expansion code seed n).length = 32 * n := by
  simp [Standard.expansion, List.length_flatMap, hcode]
  omega

/-- More codes behind it do not change what comes first. -/
theorem take_expansion (hcode : ∀ message, (code message).length = 32) {length m n : ℕ}
    (hm : length ≤ 32 * m) (hn : length ≤ 32 * n) :
    (Standard.expansion code seed m).take length = (Standard.expansion code seed n).take length := by
  wlog hle : m ≤ n generalizing m n
  · exact (this hn hm (Nat.le_of_not_le hle)).symm
  · -- The longer expansion is the shorter one with more codes behind it.
    have hsplit : List.range' 1 n = List.range' 1 m ++ List.range' (1 + m) (n - m) := by
      rw [List.range'_append_1, Nat.add_sub_cancel' hle]
    have hfront : length ≤ (Standard.expansion code seed m).length := by
      rwa [length_expansion hcode]
    have happend : Standard.expansion code seed n = Standard.expansion code seed m ++
        (List.range' (1 + m) (n - m)).flatMap fun i => code (Standard.input code seed i ++ seed) := by
      rw [Standard.expansion, hsplit, List.flatMap_append, Standard.expansion]
    rw [happend, List.take_append_of_le_length hfront]

/-- From one code on the digests are those of the sequence, as the input that goes along with them is
the code of the last one. -/
theorem digests_eq {keyed : Hmac} (hkeyed : ∀ message, (keyed.update message).finish = code message)
    (seed : Bytes) (i n : ℕ) : digests keyed seed n (Standard.input code seed i) =
      (List.range' i n).flatMap fun i => code (Standard.input code seed i ++ seed) := by
  induction n generalizing i with
  | zero => rfl
  | succ n ih =>
    rw [digests, Hmac.update_update, hkeyed, hkeyed, List.range'_succ, List.flatMap_cons, ← ih]
    rfl

/-- Any number of codes that is large enough may be taken: the front is the same. -/
theorem expand_eq_take (secret : Bytes) (label : String) (seed : Bytes) {length n : ℕ}
    (hlimit : length ≤ outputLimit) (hn : length ≤ 32 * n) :
    expand secret label seed length = .ok ((Standard.expansion (Hmac.Standard.code Sha256.hash secret)
      (label.toUTF8.data.toList ++ seed) n).take length) := by
  generalize hseed : label.toUTF8.data.toList ++ seed = labelled
  have hkeyed := Hmac.finish_update secret
  have hcode (message : Bytes) : (Hmac.Standard.code Sha256.hash secret message).length = 32 := by
    rw [← hkeyed, Hmac.length_finish]
    rfl
  have hcount : length ≤ 32 * ((length + Sha256.digestLength - 1) / Sha256.digestLength) := by
    rw [Sha256.digestLength]
    omega
  -- The first digest is made with `A(1)`.
  have hdigests := digests_eq hkeyed labelled 1
    ((length + Sha256.digestLength - 1) / Sha256.digestLength)
  rw [expand, if_neg (Nat.not_lt.2 hlimit), hseed, take_expansion hcode hn hcount,
    Standard.expansion, ← hdigests]
  dsimp only
  rw [hkeyed]
  rfl

end Prf

/-- Codes are those of RFC 2104 over the standard's hash, in whatever pieces a message comes. Up to 128
bytes a secret expands to the front of the sequence of codes in RFC 5246, so an output begins with each
shorter one; more than that is refused. -/
theorem derivation_standard (key : Bytes) (pieces : List Bytes) (secret : Bytes) (label : String)
    (seed : Bytes) (length : ℕ) :
    (pieces.foldl Hmac.update (.ofKey key)).finish =
      Hmac.Standard.code Sha256.Standard.digest key pieces.flatten ∧
    Hmac.mac key pieces.flatten = Hmac.Standard.code Sha256.Standard.digest key pieces.flatten ∧
    if length ≤ 128 then
      ∃ out, Prf.expand secret label seed length = .ok out ∧ out.length = length ∧
        (∀ n, length ≤ 32 * n →
          out = (Prf.Standard.expansion (Hmac.Standard.code Sha256.Standard.digest secret)
            (label.toUTF8.data.toList ++ seed) n).take length) ∧
        ∀ shorter ≤ length, Prf.expand secret label seed shorter = .ok (out.take shorter)
    else Prf.expand secret label seed length = .error (.outputTooLong length 128) := by
  rw [← funext Sha256.hash_eq_digest]
  refine ⟨Hmac.finish_foldl key pieces, Hmac.finish_update key _, ?_⟩
  split
  · rename_i hlimit
    have hexpand {m n : ℕ} (hm : m ≤ 128) (hn : m ≤ 32 * n) :=
      Prf.expand_eq_take secret label seed hm hn
    obtain ⟨out, hout, hlength⟩ := Prf.expand_eq_ok secret label seed hlimit
    have hfront (n : ℕ) (hn : length ≤ 32 * n) := Except.ok.inj (hout.symm.trans (hexpand hlimit hn))
    refine ⟨out, hout, hlength, hfront, fun shorter hshorter => ?_⟩
    -- Four codes are enough for either length.
    rw [hexpand (n := 4) (hshorter.trans hlimit) (hshorter.trans hlimit), hfront 4 hlimit,
      List.take_take, Nat.min_eq_left hshorter]
  · rename_i hlimit
    exact if_pos (Nat.lt_of_not_le hlimit)

/-- The first example of RFC 4231 in two pieces, and outputs of 48 and of 12 bytes under its key. -/
theorem greeting_derivation :
    Hmac.Standard.code Sha256.Standard.digest (List.replicate 20 0x0b)
      [0x48, 0x69, 0x20, 0x54, 0x68, 0x65, 0x72, 0x65] =
      [0xb0, 0x34, 0x4c, 0x61, 0xd8, 0xdb, 0x38, 0x53, 0x5c, 0xa8, 0xaf, 0xce, 0xaf, 0x0b, 0xf1, 0x2b,
        0x88, 0x1d, 0xc2, 0x00, 0xc9, 0x83, 0x3d, 0xa7, 0x26, 0xe9, 0x37, 0x6c, 0x2e, 0x32, 0xcf,
        0xf7] ∧
    ∃ out, Prf.expand (List.replicate 20 0x0b) "test label" [1, 2, 3] 48 = .ok out ∧
      out = (Prf.Standard.expansion
        (Hmac.Standard.code Sha256.Standard.digest (List.replicate 20 0x0b))
        ("test label".toUTF8.data.toList ++ [1, 2, 3]) 2).take 48 ∧
      Prf.expand (List.replicate 20 0x0b) "test label" [1, 2, 3] 12 = .ok (out.take 12) := by
  obtain ⟨hpieces, -, hexpand⟩ := derivation_standard (List.replicate 20 0x0b)
    [[0x48, 0x69], [0x20, 0x54, 0x68, 0x65, 0x72, 0x65]] (List.replicate 20 0x0b) "test label"
    [1, 2, 3] 48
  rw [if_pos (by decide)] at hexpand
  obtain ⟨out, hout, -, hfront, hshorter⟩ := hexpand
  refine ⟨?_, out, hout, hfront 2 (by decide), hshorter 12 (by decide)⟩
  refine Eq.trans hpieces.symm ?_
  decide +kernel

end TlsClient
