import TlsClient.Sha256.Stream

namespace TlsClient

structure Hmac where
  inner : Sha256
  outer : Sha256
deriving DecidableEq

namespace Hmac

def blockKey (key : Bytes) : Bytes :=
  let short := if key.length > Sha256.blockLength then Sha256.hash key else key
  -- A digest is shorter than a block, so there is always room for the zeros.
  short ++ List.replicate (Sha256.blockLength - short.length) 0

def ofKey (key : Bytes) : Hmac where
  inner := Sha256.empty.update ((blockKey key).map (· ^^^ 0x36))
  outer := Sha256.empty.update ((blockKey key).map (· ^^^ 0x5c))

def update (m : Hmac) (data : Bytes) : Hmac :=
  { m with inner := m.inner.update data }

def finish (m : Hmac) : Bytes :=
  (m.outer.update m.inner.finish).finish

def mac (key message : Bytes) : Bytes :=
  ((ofKey key).update message).finish

@[simp] theorem length_finish (m : Hmac) : m.finish.length = Sha256.digestLength := by
  simp [finish]

@[simp] theorem length_mac (key message : Bytes) :
    (mac key message).length = Sha256.digestLength := by
  simp [mac]

end Hmac
end TlsClient
