import TlsClient.Rsa.PublicKey

namespace TlsClient.PublicKey

def digestInfo : Bytes :=
  [0x30, 0x31, 0x30, 0x0d, 0x06, 0x09, 0x60, 0x86, 0x48, 0x01, 0x65, 0x03, 0x04, 0x02, 0x01, 0x05,
    0x00, 0x04, 0x20]

/-- Whether a block stands for a digest: it is `00 01`, at least eight bytes of padding, `00`,
`digestInfo` and the digest. -/
def standsFor (digest block : Bytes) : Bool :=
  -- The padding takes what the other parts leave of the block.
  let padding := block.length - (3 + digestInfo.length + digest.length)
  if padding < 8 then false else
    let (header, rest) := block.splitAt 2
    let (filler, rest) := rest.splitAt padding
    let (separator, rest) := rest.splitAt 1
    let (info, hash) := rest.splitAt digestInfo.length
    header == [0x00, 0x01] && filler.all (· == 0xff) && separator == [0x00] && info == digestInfo &&
      hash == digest

def verify (key : PublicKey) (digest signature : Bytes) : Bool :=
  if signature.length = key.byteLength ∧ digest.length = 32 then
    match Natural.ofBytes signature with
    | .ok s =>
      s.less key.modulus &&
        match key.raise signature with
        | .ok block => standsFor digest block
        | .error _ => false
    | .error _ => false
  else false

end TlsClient.PublicKey
