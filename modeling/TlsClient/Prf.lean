import TlsClient.CryptoFault
import TlsClient.Hmac

namespace TlsClient.Prf

def outputLimit : Nat := 128

def masterSecretLength : Nat := 48

def verifyDataLength : Nat := 12

/-- `n` digests in a row: the codes of `a ++ seed`, where each next `a` is the code of the last. -/
def digests (keyed : Hmac) (seed : Bytes) : (n : Nat) → (a : Bytes) → Bytes
  | 0, _ => []
  | n + 1, a =>
    ((keyed.update a).update seed).finish ++ digests keyed seed n (keyed.update a).finish

def expand (secret : Bytes) (label : String) (seed : Bytes) (length : Nat) :
    Except CryptoFault Bytes :=
  if length > outputLimit then .error (.outputTooLong length outputLimit) else
    let keyed := Hmac.ofKey secret
    let seed := label.toUTF8.data.toList ++ seed
    -- As many digests as cover the length; the end of the last one is cut off.
    let count := (length + Sha256.digestLength - 1) / Sha256.digestLength
    .ok ((digests keyed seed count (keyed.update seed).finish).take length)

def masterSecret (preMaster clientRandom serverRandom : Bytes) : Except CryptoFault Bytes :=
  expand preMaster "master secret" (clientRandom ++ serverRandom) masterSecretLength

/-- Key material. The server's random comes first in the seed. -/
def keyBlock (master clientRandom serverRandom : Bytes) (length : Nat) :
    Except CryptoFault Bytes :=
  expand master "key expansion" (serverRandom ++ clientRandom) length

def verifyData (master : Bytes) (label : String) (handshakeHash : Bytes) :
    Except CryptoFault Bytes :=
  expand master label handshakeHash verifyDataLength

end TlsClient.Prf
