import TlsClient.Random.Source
import TlsClient.Text
import TlsClient.Wire.Parser

namespace TlsClient

structure Clock where
  seconds : Int
  nanoseconds : Nat
deriving DecidableEq

def Clock.unixTime (c : Clock) : UInt32 :=
  UInt32.ofNat (c.seconds + c.nanoseconds / 1000000000).toNat

structure HelloRandom where
  time : UInt32
  random : Octets 28
deriving DecidableEq

namespace HelloRandom

instance : Inhabited HelloRandom := ⟨0, Octets.ofBytes 28 []⟩

def draw {ρ : Type} [RandomSource ρ] (now : Clock) (r : ρ) : HelloRandom × ρ :=
  let (bs, r) := RandomSource.bytes r 28
  (⟨now.unixTime, Octets.ofBytes 28 bs⟩, r)

def parse : Wire.Parser HelloRandom := do
  let time ← Wire.Parser.word32
  let random ← Wire.Parser.take 28
  return ⟨time, Octets.ofBytes 28 random⟩

def toBytes (x : HelloRandom) : Bytes :=
  Bytes.ofNat 4 x.time.toNat ++ x.random.toList

def text (x : HelloRandom) : String :=
  Text.record "Random" [("gmt_unix_time", toString x.time.toNat),
    ("random_bytes", Text.list (x.random.toList.map fun b => toString b.toNat))]

end HelloRandom
end TlsClient
