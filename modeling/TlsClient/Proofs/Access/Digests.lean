import TlsClient.Proofs.Access.Basic
import TlsClient.Proofs.Record.Secrets
import TlsClient.Proofs.Sha256.Stream
import TlsClient.Proofs.Wire.Bodies

namespace TlsClient

namespace Sha256

namespace Checked

def absorb : (v : Chain) → List Bytes → Checked Chain
  | v, [] => return v
  | v, block :: blocks => do
    Checked.touch (.copy block.length blockLength)
    absorb (v.compress block) blocks

def start (v : Chain) (length : Nat) (data : Bytes) : Checked Sha256 := do
  let whole := data.length / blockLength * blockLength
  let chain ← absorb v (Bytes.chunks blockLength (data.take whole))
  let _ ← Checked.store blockLength (data.drop whole)
  return {
    chain
    pending := data.drop whole
    length
    pending_lt := by
      simp only [List.length_drop, whole, blockLength]
      omega }

/-- Takes in a string behind what is pending, to which its first `taken` bytes are added. -/
def complete (s : Sha256) (taken : Nat) (data : Bytes) : Checked Sha256 := do
  let filled := s.pending.length + taken
  let head ← Checked.slice 0 taken data
  let buffer ← Checked.overwrite s.pending.length filled head
    (s.pending ++ List.replicate (blockLength - s.pending.length) 0)
  let rest ← Checked.slice taken data.length data
  if h : filled < blockLength then
    return {
      chain := s.chain
      pending := buffer.take filled
      length := s.length + data.length
      pending_lt := Nat.lt_of_le_of_lt (List.length_take_le _ _) h }
  else start (s.chain.compress buffer) (s.length + data.length) rest

def update (s : Sha256) (data : Bytes) : Checked Sha256 := do
  if s.pending = [] then start s.chain (s.length + data.length) data
  else
    let room ← Checked.difference blockLength s.pending.length
    complete s (min room data.length) data

def paddingEnd (s : Sha256) : Checked Nat :=
  if s.pending.length < 56 then Checked.difference 56 s.pending.length
  else Checked.difference 120 s.pending.length

def finish (s : Sha256) : Checked Bytes := do
  let stop ← paddingEnd s
  let array ← Checked.overwrite stop (stop + 8) (Bytes.ofNat 8 (8 * s.length))
    (0x80 :: List.replicate 71 0)
  let padding ← Checked.slice 0 (stop + 8) array
  return (← update s padding).chain.toBytes

/-- Whole blocks fit the arrays that they are copied into. -/
theorem absorb_eq (v : Chain) {blocks : List Bytes} (h : ∀ b ∈ blocks, b.length = blockLength) :
    absorb v blocks = .ok (blocks.foldl Chain.compress v) := by
  induction blocks generalizing v with
  | nil => rfl
  | cons block blocks ih =>
    obtain ⟨hblock, hblocks⟩ := List.forall_mem_cons.1 h
    have hcopy : (Access.copy block.length blockLength).InRange := hblock
    rw [absorb, Checked.touch_eq hcopy, Checked.ok_bind, ih _ hblocks, List.foldl_cons]

theorem start_eq (s : Sha256) (h : s.pending = []) (data : Bytes) :
    start s.chain (s.length + data.length) data = .ok (s.update data) := by
  have hwhole : blockLength ∣ (data.take (data.length / blockLength * blockLength)).length := by
    rw [List.length_take, Nat.min_eq_left (Nat.div_mul_le_self _ _)]
    exact Nat.dvd_mul_left _ _
  have hrest : (data.drop (data.length / blockLength * blockLength)).length ≤ blockLength := by
    rw [List.length_drop, blockLength]
    omega
  rw [start, absorb_eq _ fun b => Bytes.length_of_mem_chunks (by decide) hwhole, Checked.ok_bind,
    Checked.store_eq hrest, Checked.ok_bind]
  simp only [Sha256.update, h, List.nil_append]
  rfl

/-- Bytes that do not fill a block are kept. -/
theorem update_of_lt (s : Sha256) {data : Bytes} (h : s.pending.length + data.length < blockLength) :
    s.update data = {
      chain := s.chain
      pending := s.pending ++ data
      length := s.length + data.length
      pending_lt := by rwa [List.length_append] } := by
  have hwhole : (s.pending ++ data).length / blockLength * blockLength = 0 := by
    rw [List.length_append, Nat.div_eq_of_lt h, Nat.zero_mul]
  simp only [Sha256.update, hwhole, List.take_zero, List.drop_zero, Chain.absorb, Bytes.chunks_nil,
    List.foldl_nil]

/-- Bytes that fill a block are taken in with it. -/
theorem update_of_eq (s : Sha256) {data : Bytes} (h : s.pending.length + data.length = blockLength) :
    s.update data = {
      chain := s.chain.compress (s.pending ++ data)
      pending := []
      length := s.length + data.length
      pending_lt := by decide } := by
  have hlength : (s.pending ++ data).length = blockLength := by rw [List.length_append, h]
  have hne : s.pending ++ data ≠ [] := by
    rw [← List.length_pos_iff, hlength]
    decide
  have hwhole :
      (s.pending ++ data).length / blockLength * blockLength = (s.pending ++ data).length := by
    rw [hlength]
    rfl
  simp only [Sha256.update, hwhole, List.take_length, List.drop_length, Chain.absorb,
    Bytes.chunks_of_length_le hne (Nat.le_of_eq hlength), List.foldl_cons, List.foldl_nil]

/-- What completes the pending block is cut where the block ends, or is all that there is. -/
theorem complete_eq (s : Sha256) {taken : Nat} {data : Bytes} (hle : taken ≤ data.length)
    (hfits : s.pending.length + taken ≤ blockLength)
    (hall : s.pending.length + taken < blockLength → taken = data.length) :
    complete s taken data = .ok (s.update data) := by
  have hhead : (data.take taken).length = taken := List.length_take_of_le hle
  -- The array holds what is pending and has room for the rest of a block behind it.
  have harray : (s.pending ++ List.replicate (blockLength - s.pending.length) 0).length =
      blockLength := by
    rw [List.length_append, List.length_replicate]
    omega
  unfold complete
  dsimp only
  rw [Checked.slice_zero hle, Checked.ok_bind,
    Checked.overwrite_eq (Nat.le_add_right _ _) (by omega) (by omega), Checked.ok_bind,
    Checked.slice_length hle, Checked.ok_bind, List.take_left]
  split
  · rename_i hfilled
    have hpending : s.pending.length + data.length < blockLength := hall hfilled ▸ hfilled
    have hbuffer (later : Bytes) : (s.pending ++ data.take taken ++ later).take
        (s.pending.length + taken) = s.pending ++ data := by
      rw [List.take_left' (by rw [List.length_append, hhead]), hall hfilled, List.take_length]
    simp only [hbuffer]
    rw [update_of_lt s hpending]
    rfl
  · have hfull : s.pending.length + (data.take taken).length = blockLength := by omega
    have hend : (s.pending ++ List.replicate (blockLength - s.pending.length) 0).drop
        (s.pending.length + taken) = [] := List.drop_of_length_le (by omega)
    -- Once the block is full the rest is taken in by a hash with nothing pending.
    have hrest := start_eq (s.update (data.take taken)) (by rw [update_of_eq s hfull])
      (data.drop taken)
    rw [Sha256.update_update, List.take_append_drop, update_of_eq s hfull] at hrest
    have hlength : s.length + (data.take taken).length + (data.drop taken).length =
        s.length + data.length := by
      rw [hhead, List.length_drop]
      omega
    rw [hend, List.append_nil, ← hrest]
    dsimp only
    rw [hlength]

/-- A hash under way always has room for what is copied behind its pending bytes, however long the
piece. -/
theorem update_eq (s : Sha256) (data : Bytes) : update s data = .ok (s.update data) := by
  have hpending := s.pending_lt
  unfold update
  split
  · rename_i h
    exact start_eq s h data
  · rw [Checked.difference_eq (Nat.le_of_lt hpending), Checked.ok_bind]
    exact complete_eq s (Nat.min_le_right _ _) (by omega) (by omega)

/-- The padding is one byte and as many zeros as there are up to the place of the length. -/
theorem paddingEnd_eq (s : Sha256) :
    paddingEnd s = .ok ((119 - s.pending.length) % blockLength + 1) := by
  have hpending : s.pending.length < 64 := s.pending_lt
  unfold paddingEnd
  rw [blockLength]
  split
  · rw [Checked.difference_eq (by omega)]
    congr 1
    omega
  · rw [Checked.difference_eq (by omega)]
    congr 1
    omega

/-- The padding fits into the place for the longest one, whatever is pending. -/
theorem finish_eq (s : Sha256) : finish s = .ok s.finish := by
  have hzeros : (119 - s.pending.length) % blockLength < 64 := Nat.mod_lt _ (by decide)
  rw [finish, paddingEnd_eq, Checked.ok_bind, Sha256.finish, padding]
  generalize (119 - s.pending.length) % blockLength = zeros at hzeros
  generalize hfield : Bytes.ofNat 8 (8 * s.length) = field
  have hlength : field.length = 8 := hfield ▸ Bytes.length_ofNat 8 _
  have harray : (0x80 :: List.replicate 71 0 : Bytes).length = 72 := rfl
  have hsource : field.length = zeros + 1 + 8 - (zeros + 1) := by omega
  have hfront : (0x80 :: List.replicate 71 0 : Bytes).take (zeros + 1) =
      0x80 :: List.replicate zeros 0 := by
    rw [List.take_succ_cons, List.take_replicate, Nat.min_eq_left (by omega)]
  have hpadding : zeros + 1 + 8 = (0x80 :: List.replicate zeros 0 ++ field).length := by
    rw [List.length_append, List.length_cons, List.length_replicate, hlength]
  rw [Checked.overwrite_eq (Nat.le_add_right _ _) (by omega) hsource, Checked.ok_bind, hfront,
    hpadding, Checked.slice_zero, List.take_left, Checked.ok_bind, update_eq, Checked.ok_bind]
  · rfl
  · exact (List.prefix_append _ _).length_le

def hash (message : Bytes) : Checked Bytes := do
  finish (← update empty message)

theorem hash_eq (message : Bytes) : hash message = .ok (Sha256.hash message) := by
  rw [hash, update_eq, Checked.ok_bind, finish_eq]
  rfl

end Checked
end Sha256

namespace Hmac

namespace Checked

def ofKey (key : Bytes) : Checked Hmac := do
  let short ← if key.length > Sha256.blockLength then Sha256.Checked.hash key else pure key
  let short ← Checked.store Sha256.blockLength short
  let block := short ++ List.replicate (Sha256.blockLength - short.length) 0
  return {
    inner := ← Sha256.Checked.update .empty (block.map (· ^^^ 0x36))
    outer := ← Sha256.Checked.update .empty (block.map (· ^^^ 0x5c)) }

def update (m : Hmac) (data : Bytes) : Checked Hmac := do
  return { m with inner := ← Sha256.Checked.update m.inner data }

def finish (m : Hmac) : Checked Bytes := do
  Sha256.Checked.finish (← Sha256.Checked.update m.outer (← Sha256.Checked.finish m.inner))

theorem ofKey_eq (key : Bytes) : ofKey key = .ok (Hmac.ofKey key) := by
  unfold ofKey Hmac.ofKey blockKey
  split
  · rename_i h
    have hshort : (Sha256.hash key).length ≤ Sha256.blockLength := by
      rw [Sha256.length_hash]
      decide
    simp [Sha256.Checked.hash_eq, Checked.store_eq hshort, Sha256.Checked.update_eq]
  · rename_i h
    simp [Checked.store_eq (Nat.not_lt.1 h), Sha256.Checked.update_eq]

theorem update_eq (m : Hmac) (data : Bytes) : update m data = .ok (m.update data) := by
  rw [update, Sha256.Checked.update_eq]
  rfl

theorem finish_eq (m : Hmac) : finish m = .ok m.finish := by
  rw [finish, Sha256.Checked.finish_eq, Checked.ok_bind, Sha256.Checked.update_eq, Checked.ok_bind,
    Sha256.Checked.finish_eq]
  rfl

end Checked
end Hmac

namespace Prf

/-- A derivation gives as many bytes as it was asked for, or an error. -/
theorem length_expand {secret seed out : Bytes} {label : String} {length : Nat}
    (h : expand secret label seed length = .ok out) : out.length = length := by
  unfold expand at h
  split at h
  · cases h
  · cases h
    -- The digests cover the length.
    rw [List.length_take, length_digests, Sha256.digestLength]
    omega

namespace Checked

def digests (keyed : Hmac) (label seed : Bytes) (length : Nat) :
    (count : Nat) → (result a : Bytes) → Checked Bytes
  | 0, result, _ => return result
  | count + 1, result, a => do
    if result.length < length then
      let m ← Hmac.Checked.update keyed a
      let m ← Hmac.Checked.update m label
      let m ← Hmac.Checked.update m seed
      let output ← Hmac.Checked.finish m
      let missing ← Checked.difference length result.length
      let part ← Checked.slice 0 (min missing output.length) output
      let result ← Checked.extend outputLimit result part
      if result.length < length then
        let next ← Hmac.Checked.finish (← Hmac.Checked.update keyed a)
        digests keyed label seed length count result next
      else return result
    else return result

def expand (secret : Bytes) (label : String) (seed : Bytes) (length : Nat) :
    Checked.Attempt CryptoFault Bytes := do
  if length > outputLimit then throw (.outputTooLong length outputLimit)
  else
    let label := label.toUTF8.data.toList
    let keyed ← Hmac.Checked.ofKey secret
    let m ← Hmac.Checked.update (← Hmac.Checked.update keyed label) seed
    let count := (length + Sha256.digestLength - 1) / Sha256.digestLength
    digests keyed label seed length count [] (← Hmac.Checked.finish m)

/-- Digests are added up to the length that is asked for, and the last one is cut there. -/
theorem digests_eq (keyed : Hmac) (label seed : Bytes) {length : Nat} (count : Nat) (result a : Bytes)
    (hlimit : length ≤ outputLimit) (hresult : result.length ≤ length) :
    digests keyed label seed length count result a =
      .ok (result ++ (Prf.digests keyed (label ++ seed) count a).take (length - result.length)) := by
  induction count generalizing result a with
  | zero => simp [digests, Prf.digests]
  | succ count ih =>
    by_cases hless : result.length < length
    · generalize houtput : (keyed.update (a ++ (label ++ seed))).finish = output
      have hdigest : output.length = Sha256.digestLength := houtput ▸ Hmac.length_finish _
      generalize hmissing : length - result.length = missing
      have hpart : (output.take (min missing output.length)).length = min missing output.length :=
        List.length_take_of_le (Nat.min_le_right _ _)
      have hroom : result.length + (output.take (min missing output.length)).length ≤ outputLimit := by
        omega
      simp only [digests, if_pos hless, Hmac.Checked.update_eq, Hmac.Checked.finish_eq,
        Checked.ok_bind, Hmac.update_update, houtput, hmissing,
        Checked.difference_eq (Nat.le_of_lt hless), Checked.slice_zero (Nat.min_le_right _ _),
        Checked.extend_eq hroom, Prf.digests]
      split
      · rename_i hmore
        -- All of the digest was wanted, and so are others after it.
        have hall : min missing output.length = output.length := by
          rw [List.length_append, hpart] at hmore
          omega
        have hnext := ih (result ++ output) (keyed.update a).finish
          (by rw [List.length_append]; omega)
        have hwhole : output.take missing = output := List.take_of_length_le (by omega)
        rw [hall, List.take_length, hnext, List.length_append, List.append_assoc, List.take_append,
          hwhole, Nat.sub_add_eq, hmissing]
      · rename_i hdone
        have henough : missing ≤ output.length := by
          rw [List.length_append, hpart] at hdone
          omega
        rw [Nat.min_eq_left henough, List.take_append_of_le_length henough]
        rfl
    · -- The result is as long as it was asked for.
      have hzero : length - result.length = 0 := by omega
      rw [digests, if_neg hless, hzero, List.take_zero, List.append_nil]
      rfl

/-- A derivation beyond the limit is refused before anything is written. -/
theorem expand_eq (secret : Bytes) (label : String) (seed : Bytes) (length : Nat) :
    expand secret label seed length = Checked.outcome (Prf.expand secret label seed length) := by
  unfold expand Prf.expand
  split
  · rfl
  · rename_i h
    generalize hkeyed : Hmac.ofKey secret = keyed
    have hdigests := digests_eq keyed label.toUTF8.data.toList seed
      ((length + Sha256.digestLength - 1) / Sha256.digestLength) []
      ((keyed.update (label.toUTF8.data.toList ++ seed)).finish) (Nat.not_lt.1 h) (Nat.zero_le _)
    simp only [Hmac.Checked.ofKey_eq, Hmac.Checked.update_eq, Hmac.Checked.finish_eq, hkeyed,
      Hmac.update_update, Checked.liftM_bind, hdigests]
    rfl

def seed (first second : HelloRandom) : Checked Bytes := do
  Checked.extend 64 (← Checked.extend 64 [] first.toBytes) second.toBytes

def masterSecret (preMaster : Bytes) (client server : HelloRandom) :
    Checked.Attempt CryptoFault Bytes := do
  let out ← expand preMaster "master secret" (← seed client server) masterSecretLength
  return (← Checked.octets masterSecretLength out).toList

def keyBlock (master : Bytes) (client server : HelloRandom) (length : Nat) :
    Checked.Attempt CryptoFault Bytes := do
  expand master "key expansion" (← seed server client) length

def verifyData (master : Bytes) (label : String) (handshakeHash : Bytes) :
    Checked.Attempt CryptoFault Bytes := do
  let out ← expand master label handshakeHash verifyDataLength
  return (← Checked.octets verifyDataLength out).toList

theorem seed_eq (first second : HelloRandom) :
    seed first second = .ok (first.toBytes ++ second.toBytes) := by
  have hlength : first.toBytes.length = 32 := first.length_toBytes
  have hlength' : second.toBytes.length = 32 := second.length_toBytes
  have hfirst : ([] : Bytes).length + first.toBytes.length ≤ 64 := by
    rw [List.length_nil]
    omega
  have hsecond : first.toBytes.length + second.toBytes.length ≤ 64 := by omega
  rw [seed, Checked.extend_eq hfirst, Checked.ok_bind, List.nil_append, Checked.extend_eq hsecond]

/-- An output is copied into an array of the length that was asked for. -/
theorem octets_expand (secret : Bytes) (label : String) (seed : Bytes) (length : Nat) :
    (do
      let out ← expand secret label seed length
      return (← Checked.octets length out).toList) =
      Checked.outcome (Prf.expand secret label seed length) := by
  rw [expand_eq]
  cases hexpand : Prf.expand secret label seed length with
  | error e => rfl
  | ok out =>
    have hlength : out.length = length := length_expand hexpand
    rw [Checked.outcome_ok, pure_bind, Checked.octets_eq hlength, Checked.liftM_bind,
      Octets.toList_ofBytes hlength]

theorem masterSecret_eq (preMaster : Bytes) (client server : HelloRandom) :
    masterSecret preMaster client server =
      Checked.outcome (Prf.masterSecret preMaster client.toBytes server.toBytes) := by
  rw [masterSecret, seed_eq, Checked.liftM_bind, octets_expand, Prf.masterSecret]

theorem keyBlock_eq (master : Bytes) (client server : HelloRandom) (length : Nat) :
    keyBlock master client server length =
      Checked.outcome (Prf.keyBlock master client.toBytes server.toBytes length) := by
  rw [keyBlock, seed_eq, Checked.liftM_bind, expand_eq, Prf.keyBlock]

theorem verifyData_eq (master : Bytes) (label : String) (handshakeHash : Bytes) :
    verifyData master label handshakeHash =
      Checked.outcome (Prf.verifyData master label handshakeHash) := by
  rw [verifyData, octets_expand, Prf.verifyData]

end Checked
end Prf
end TlsClient
