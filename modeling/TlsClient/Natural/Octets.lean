import TlsClient.Natural.Basic

namespace TlsClient

namespace Words

def ofLittleEndian : Bytes → List UInt32
  | a :: b :: c :: d :: rest =>
    UInt32.ofNat (Bytes.toNat [d, c, b, a]) :: ofLittleEndian rest
  | [] => []
  | rest => [UInt32.ofNat (Bytes.toNat rest.reverse)]

def toLittleEndian (ws : List UInt32) : Bytes :=
  ws.flatMap fun w => (Bytes.ofNat 4 w.toNat).reverse

end Words

namespace Natural

def ofBytes (bs : Bytes) : Except ArithmeticError Natural :=
  ofWords (Words.ofLittleEndian bs.reverse)

def byteLength (a : Natural) : Nat :=
  (a.bitLength + 7) / 8

def toBytes (a : Natural) (len : Nat) : Except ArithmeticError Bytes :=
  if a.byteLength > len then .error (.bufferTooSmall a.byteLength len) else
    -- The top word may have zero bytes, which are no digits of the number.
    let digits := (Words.toLittleEndian a.words).take a.byteLength
    .ok (List.replicate (len - a.byteLength) 0 ++ digits.reverse)

/-- Overwrites a buffer with the value. The second part is the buffer afterwards. -/
def writeBytes (a : Natural) (buffer : Bytes) : Except ArithmeticError Unit × Bytes :=
  match a.toBytes buffer.length with
  | .ok bs => (.ok (), bs)
  | .error e => (.error e, buffer)

end Natural
end TlsClient
