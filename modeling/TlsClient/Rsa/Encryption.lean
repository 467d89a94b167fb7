import TlsClient.Random.Source
import TlsClient.Rsa.PublicKey

namespace TlsClient.PublicKey

variable {ρ : Type} [RandomSource ρ]

def paddingOverhead : Nat := 11

/-- The next `count` bytes that are not zero, out of at most `fuel` bytes drawn one by one. -/
def nonZeroBytes : (fuel count : Nat) → ρ → Option Bytes × ρ
  | _, 0, r => (some [], r)
  | 0, _ + 1, r => (none, r)
  | fuel + 1, count + 1, r =>
    let (bs, r) := RandomSource.fill r 1
    let b := bs.headD 0
    -- A zero would end the padding, so it is drawn again.
    if b = 0 then nonZeroBytes fuel (count + 1) r else
      let (rest, r) := nonZeroBytes fuel count r
      (rest.map (b :: ·), r)

/-- The message padded to `target` bytes. A message that does not fit draws nothing. -/
def pad (fuel : Nat) (message : Bytes) (target : Nat) (r : ρ) : Except Stop Bytes × ρ :=
  if target < paddingOverhead ∨ message.length > target - paddingOverhead then
    (.error (.failed (.crypto (.messageTooLong message.length target))), r)
  else
    -- Three bytes are fixed: two in front and the zero before the message.
    match nonZeroBytes fuel (target - message.length - 3) r with
    | (some random, r) => (.ok ([0, 2] ++ random ++ [0] ++ message), r)
    | (none, r) => (.error .unfinished, r)

def encrypt (key : PublicKey) (fuel : Nat) (message : Bytes) (r : ρ) : Except Stop Bytes × ρ :=
  match pad fuel message key.byteLength r with
  | (.ok padded, r) => ((key.raise padded).mapError fun e => .failed (.arithmetic e), r)
  | (.error e, r) => (.error e, r)

end TlsClient.PublicKey
