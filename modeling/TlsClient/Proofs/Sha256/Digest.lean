import TlsClient.Proofs.Sha256.Standard
import TlsClient.Proofs.Sha256.Stream

/-!
Digests of messages that arrive in pieces. Whatever is asked of a hash on the way, it is a function of the
bytes taken in so far (`run_update`), and this function is the hash of FIPS 180-4: the padded message cut
into blocks, which the compression function takes in one after the other. Main statement:
`digests_standard`.
-/

namespace TlsClient.Sha256

/-! ### The standard -/

namespace Standard

theorem exists_zeros (n : ℕ) : ∃ z, 64 ∣ n + 1 + z + 8 :=
  ⟨(119 - n % 64) % 64, by omega⟩

def zeros (n : ℕ) : ℕ :=
  Nat.find (exists_zeros n)

/-- The message, a one bit, zeros, and the length of the message in bits. -/
def padded (message : Bytes) : Bytes :=
  message ++ 0x80 :: List.replicate (zeros message.length) 0 ++ Bytes.ofNat 8 (8 * message.length)

def blocks (message : Bytes) : List Bytes :=
  (List.range ((padded message).length / 64)).map fun i => ((padded message).drop (64 * i)).take 64

noncomputable def hashValue (message : Bytes) : State :=
  (blocks message).foldl compress initial

noncomputable def digest (message : Bytes) : Bytes :=
  (List.finRange 8).flatMap fun i => Bytes.ofNat 4 (hashValue message i).toNat

end Standard

/-! ### Padding -/

theorem zeros_eq (n : ℕ) : Standard.zeros n = (119 - n % 64) % 64 := by
  rw [Standard.zeros, Nat.find_eq_iff]
  exact ⟨by omega, by omega⟩

/-- What is pending after a message from the start is the rest of it behind whole blocks. -/
theorem length_pending (message : Bytes) :
    (empty.update message).pending.length = message.length % 64 := by
  simp only [update, empty, List.nil_append, List.length_drop, blockLength]
  omega

theorem padded_eq (message : Bytes) :
    Standard.padded message = message ++ (empty.update message).padding := by
  have hlength : (empty.update message).length = message.length := Nat.zero_add _
  rw [Standard.padded, zeros_eq, padding, length_pending, hlength, List.append_assoc, blockLength]

theorem length_padded (message : Bytes) : (Standard.padded message).length =
    message.length + 1 + Standard.zeros message.length + 8 := by
  simp only [Standard.padded, List.length_append, List.length_cons, List.length_replicate,
    Bytes.length_ofNat]
  omega

/-- The padded message is made of whole blocks. -/
theorem dvd_length_padded (message : Bytes) : 64 ∣ (Standard.padded message).length := by
  rw [length_padded]
  exact Nat.find_spec (Standard.exists_zeros message.length)

/-- Below `2 ^ 61` bytes the length in bits has room in the eight bytes at the end. -/
theorem toNat_length_field {message : Bytes} (h : message.length < 2 ^ 61) :
    Bytes.toNat ((Standard.padded message).drop ((Standard.padded message).length - 8)) =
      8 * message.length := by
  have hend : (Standard.padded message).length - 8 =
      (message ++ 0x80 :: List.replicate (Standard.zeros message.length) 0).length := by
    rw [Standard.padded, List.length_append, Bytes.length_ofNat, Nat.add_sub_cancel]
  rw [hend, Standard.padded, List.drop_left, Bytes.toNat_ofNat]
  exact Nat.mod_eq_of_lt (by omega)

/-! ### One message -/

/-- Block after block the chaining value is the hash value of the standard. -/
theorem state_foldl_compress (v : Chain) {blocks : List Bytes}
    (h : ∀ block ∈ blocks, block.length = blockLength) :
    (blocks.foldl Chain.compress v).state = blocks.foldl Standard.compress v.state := by
  induction blocks generalizing v with
  | nil => rfl
  | cons block blocks ih =>
    obtain ⟨hblock, hblocks⟩ := List.forall_mem_cons.1 h
    rw [List.foldl_cons, List.foldl_cons, ih _ hblocks, state_compress v hblock]

theorem Chain.toBytes_eq (v : Chain) :
    v.toBytes = (List.finRange 8).flatMap fun i => Bytes.ofNat 4 (v.state i).toNat := by
  rfl

/-- Padding leaves nothing pending: all of the padded message is taken in. -/
theorem update_padding (message : Bytes) :
    ((empty.update message).update (empty.update message).padding).pending = [] ∧
    ((empty.update message).update (empty.update message).padding).chain =
      Chain.initial.absorb (Standard.padded message) := by
  have hwhole : (Standard.padded message).length / blockLength * blockLength =
      (Standard.padded message).length := Nat.div_mul_cancel (dvd_length_padded message)
  rw [update_update, ← padded_eq]
  simp only [update, empty, List.nil_append]
  rw [hwhole, List.drop_length, List.take_length]
  exact ⟨rfl, rfl⟩

/-- The hash of a message is its digest. -/
theorem hash_eq_digest (message : Bytes) : hash message = Standard.digest message := by
  have hblocks : Bytes.chunks blockLength (Standard.padded message) = Standard.blocks message :=
    Bytes.chunks_eq_map_range (by decide) (dvd_length_padded message)
  have hwhole : ∀ block ∈ Standard.blocks message, block.length = blockLength := fun block h =>
    Bytes.length_of_mem_chunks (by decide) (dvd_length_padded message) (hblocks ▸ h)
  rw [hash, finish, (update_padding message).2, Chain.absorb, hblocks, Chain.toBytes_eq,
    state_foldl_compress _ hwhole, Chain.state_initial, Standard.digest, Standard.hashValue]

/-! ### Messages in pieces -/

/-- What is asked of a hash under way: to take in more of the message, or what the digest is so far. -/
inductive Request where
  | update (data : Bytes)
  | digest

def run : Sha256 → List Request → Sha256 × List Bytes
  | s, [] => (s, [])
  | s, .update data :: requests => run (s.update data) requests
  | s, .digest :: requests =>
    let (t, digests) := run s requests
    (t, s.finish :: digests)

def written : List Request → Bytes
  | [] => []
  | .update data :: requests => data ++ written requests
  | .digest :: requests => written requests

def asked : (message : Bytes) → List Request → List Bytes
  | _, [] => []
  | message, .update data :: requests => asked (message ++ data) requests
  | message, .digest :: requests => message :: asked message requests

/-- A hash under way is that of all the bytes taken in, and asking for a digest leaves it as it was.
-/
theorem run_update (message : Bytes) (requests : List Request) :
    run (empty.update message) requests =
      (empty.update (message ++ written requests), (asked message requests).map hash) := by
  -- Whatever was asked, the state is that of one update with all bytes so far.
  induction requests generalizing message with
  | nil => rw [run, written, asked, List.append_nil, List.map_nil]
  | cons request requests ih =>
    cases request with
    | update data => rw [run, update_update, ih, written, asked, List.append_assoc]
    | digest =>
      rw [run, ih, written, asked, List.map_cons]
      rfl

/-- Each digest is the one that the standard gives for the bytes taken in before it, in whatever pieces
they came and whatever digests were asked for on the way, and so is the last one. The padding ends where
a block ends, and with the length of the message if that is below `2 ^ 61` bytes. -/
theorem digests_standard (requests : List Request) :
    (run empty requests).2 = (asked [] requests).map Standard.digest ∧
    (run empty requests).1.finish = Standard.digest (written requests) ∧
    hash (written requests) = Standard.digest (written requests) ∧
    64 ∣ (Standard.padded (written requests)).length ∧
    ((run empty requests).1.update (run empty requests).1.padding).pending = [] ∧
    ∀ message, message.length < 2 ^ 61 →
      Bytes.toNat ((Standard.padded message).drop ((Standard.padded message).length - 8)) =
        8 * message.length := by
  have hrun : run empty requests =
      (empty.update (written requests), (asked [] requests).map Standard.digest) := by
    have hstart := run_update [] requests
    rwa [update_nil, List.nil_append, funext hash_eq_digest] at hstart
  rw [hrun]
  exact ⟨rfl, hash_eq_digest _, hash_eq_digest _, dvd_length_padded _, (update_padding _).1,
    fun _ h => toNat_length_field h⟩

/-- The first example of the standard, with a digest on the way and in two pieces. -/
theorem abc_digests :
    written [.update [0x61], .digest, .update [0x62, 0x63]] = [0x61, 0x62, 0x63] ∧
    Bytes.toNat ((Standard.padded [0x61, 0x62, 0x63]).drop
      ((Standard.padded [0x61, 0x62, 0x63]).length - 8)) = 24 ∧
    (run empty [.update [0x61], .digest, .update [0x62, 0x63]]).1.finish =
      Standard.digest [0x61, 0x62, 0x63] ∧
    Standard.digest [0x61, 0x62, 0x63] =
      [0xba, 0x78, 0x16, 0xbf, 0x8f, 0x01, 0xcf, 0xea, 0x41, 0x41, 0x40, 0xde, 0x5d, 0xae, 0x22, 0x23,
        0xb0, 0x03, 0x61, 0xa3, 0x96, 0x17, 0x7a, 0x9c, 0xb4, 0x10, 0xff, 0x61, 0xf2, 0x00, 0x15,
        0xad] := by
  obtain ⟨-, hfinish, hhash, -, -, hfield⟩ :=
    digests_standard [.update [0x61], .digest, .update [0x62, 0x63]]
  refine ⟨rfl, hfield _ (by decide), hfinish, ?_⟩
  refine Eq.trans hhash.symm ?_
  decide +kernel

end TlsClient.Sha256
