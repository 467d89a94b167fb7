import TlsClient.Text

namespace TlsClient.Network

inductive IpAddress where
  | v4 (octets : Octets 4)
  | v6 (groups : Vector UInt16 8)
deriving DecidableEq

structure Endpoint where
  address : IpAddress
  port : UInt16
deriving DecidableEq

namespace IpAddress

def dotted (octets : List UInt8) : String :=
  ".".intercalate (octets.map fun b => toString b.toNat)

def colons (groups : List UInt16) : String :=
  ":".intercalate (groups.map fun g => Text.hexNat 1 g.toNat)

def longestZeroRun (groups : List UInt16) : Nat × Nat :=
  (List.range groups.length).foldl (fun best i =>
    let length := ((groups.drop i).takeWhile (· == 0)).length
    if length > best.2 then (i, length) else best) (0, 0)

/-- The written form. An address that embeds a short one after `ffff` ends in dotted decimal; a run
of at least two zero groups is written `::`. -/
def text : IpAddress → String
  | .v4 octets => dotted octets.toList
  | .v6 groups =>
    let gs := groups.toList
    if gs.take 6 = [0, 0, 0, 0, 0, 0xFFFF] then
      "::ffff:" ++ dotted ((gs.drop 6).flatMap fun g => Bytes.ofNat 2 g.toNat)
    else
      let (start, length) := longestZeroRun gs
      -- A single zero group is written out.
      if length < 2 then colons gs
      else colons (gs.take start) ++ "::" ++ colons (gs.drop (start + length))

def octet? (s : String) : Option UInt8 :=
  if s.length > 3 ∨ (s.length > 1 ∧ s.startsWith "0") ∨ ¬ s.all Char.isDigit then none else
    match s.toNat? with
    | some n => if n < 256 then some n.toUInt8 else none
    | none => none

def ofDotted? (s : String) : Option (Octets 4) := do
  let octets ← (s.splitOn ".").mapM octet?
  if octets.length = 4 then some (Octets.ofBytes 4 octets) else none

def group? (s : String) : Option UInt16 := do
  if s.isEmpty ∨ s.length > 4 then none else
    let digits ← s.toList.mapM Text.hexDigit?
    some (UInt16.ofNat (digits.foldl (fun n d => 16 * n + d) 0))

def groups? (s : String) : Option (List UInt16) :=
  if s.isEmpty then some [] else do
    let parts ← (s.splitOn ":").mapM fun p =>
      match group? p with
      | some g => some [g]
      -- A dotted address stands for two groups.
      | none => do
        let o := (← ofDotted? p).toList
        some [UInt16.ofNat (Bytes.toNat (o.take 2)), UInt16.ofNat (Bytes.toNat (o.drop 2))]
    some parts.flatten

def ofText? (s : String) : Option IpAddress :=
  match ofDotted? s with
  | some o => some (.v4 o)
  | none =>
    match s.splitOn "::" with
    | [whole] => do
      let gs ← groups? whole
      if gs.length = 8 then some (.v6 (Vector.ofFn fun i => gs.getD i 0)) else none
    | [front, back] => do
      let f ← groups? front
      let b ← groups? back
      let gs := f ++ List.replicate (8 - (f.length + b.length)) 0 ++ b
      if gs.length = 8 then some (.v6 (Vector.ofFn fun i => gs.getD i 0)) else none
    | _ => none

end IpAddress

def Endpoint.unspecified : Endpoint := ⟨.v4 (Octets.ofBytes 4 []), 0⟩

def Endpoint.text (e : Endpoint) : String :=
  let port := ":" ++ toString e.port.toNat
  match e.address with
  | .v4 _ => e.address.text ++ port
  | .v6 _ => "[" ++ e.address.text ++ "]" ++ port

end TlsClient.Network
