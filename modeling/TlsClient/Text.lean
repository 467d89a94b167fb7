import TlsClient.Bytes

namespace TlsClient.Text

def hexNat (width n : Nat) : String :=
  let digits := Nat.toDigits 16 n
  String.ofList (List.replicate (width - digits.length) '0' ++ digits)

def hexByte (b : UInt8) : String :=
  hexNat 2 b.toNat

def hex (bs : Bytes) : String :=
  String.join (bs.map hexByte)

def hexDigit? (c : Char) : Option Nat :=
  if c.isDigit then some (c.toNat - 48)
  else if 'a' ≤ c ∧ c ≤ 'f' then some (c.toNat - 87)
  else if 'A' ≤ c ∧ c ≤ 'F' then some (c.toNat - 55)
  else none

def ofHexDigits? : List Char → Option Bytes
  | [] => some []
  | [_] => none
  | a :: b :: rest =>
    match hexDigit? a, hexDigit? b, ofHexDigits? rest with
    | some high, some low, some bs => some (UInt8.ofNat (16 * high + low) :: bs)
    | _, _, _ => none

def ofHex? (s : String) : Option Bytes :=
  ofHexDigits? s.toList

def hexCode (v : UInt16) : String :=
  "0x" ++ hexNat 4 v.toNat

def list (items : List String) : String :=
  "[" ++ ", ".intercalate items ++ "]"

def tagged (name payload : String) : String :=
  name ++ "(" ++ payload ++ ")"

def optional : Option String → String
  | none => "None"
  | some s => tagged "Some" s

def record (name : String) (fields : List (String × String)) : String :=
  name ++ " \x7b " ++ ", ".intercalate (fields.map fun f => f.1 ++ ": " ++ f.2) ++ " \x7d"

def truth (b : Bool) : String :=
  if b then "true" else "false"

end TlsClient.Text
