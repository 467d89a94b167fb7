import TlsClient.Sha256.Compression

namespace TlsClient

/-- A hash under way. -/
structure Sha256 where
  chain : Sha256.Chain
  pending : Bytes
  length : Nat
  pending_lt : pending.length < Sha256.blockLength
deriving DecidableEq

namespace Sha256

def empty : Sha256 := ⟨.initial, [], 0, by decide⟩

def Chain.absorb (v : Chain) (bs : Bytes) : Chain :=
  (Bytes.chunks blockLength bs).foldl compress v

def update (s : Sha256) (data : Bytes) : Sha256 :=
  let bs := s.pending ++ data
  -- All whole blocks are taken in at once; fewer bytes than a block are left.
  let whole := bs.length / blockLength * blockLength
  { chain := s.chain.absorb (bs.take whole)
    pending := bs.drop whole
    length := s.length + data.length
    pending_lt := by
      simp only [List.length_drop, whole, blockLength]
      omega }

/-- What follows a message: the byte `0x80`, zeros up to eight bytes before a block boundary, and the
length in bits. -/
def padding (s : Sha256) : Bytes :=
  -- What is pending is what the message has in its last block.
  0x80 :: List.replicate ((119 - s.pending.length) % blockLength) 0 ++ Bytes.ofNat 8 (8 * s.length)

def finish (s : Sha256) : Bytes :=
  (s.update s.padding).chain.toBytes

def hash (message : Bytes) : Bytes :=
  (empty.update message).finish

@[simp] theorem length_finish (s : Sha256) : s.finish.length = digestLength := by
  simp [finish]

@[simp] theorem length_hash (message : Bytes) : (hash message).length = digestLength := by
  simp [hash]

end Sha256
end TlsClient
