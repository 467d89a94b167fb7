import TlsClient.Text

namespace TlsClient

inductive HashAlgorithm where
  | none
  | md5
  | sha1
  | sha224
  | sha256
  | sha384
  | sha512
  | unknown (code : UInt8)
deriving DecidableEq

namespace HashAlgorithm

def ofCode : UInt8 → HashAlgorithm
  | 0 => .none
  | 1 => .md5
  | 2 => .sha1
  | 3 => .sha224
  | 4 => .sha256
  | 5 => .sha384
  | 6 => .sha512
  | code => .unknown code

def code : HashAlgorithm → UInt8
  | .none => 0
  | .md5 => 1
  | .sha1 => 2
  | .sha224 => 3
  | .sha256 => 4
  | .sha384 => 5
  | .sha512 => 6
  | .unknown code => code

def text : HashAlgorithm → String
  | .none => "None"
  | .md5 => "MD5"
  | .sha1 => "SHA1"
  | .sha224 => "SHA224"
  | .sha256 => "SHA256"
  | .sha384 => "SHA384"
  | .sha512 => "SHA512"
  | .unknown code => Text.tagged "Unknown" (toString code.toNat)

instance : Inhabited HashAlgorithm := ⟨.unknown 0⟩

@[simp] theorem code_ofCode (v : UInt8) : (ofCode v).code = v := by
  unfold ofCode
  split <;> rfl

end HashAlgorithm

inductive SignatureAlgorithm where
  | anonymous
  | rsa
  | dsa
  | ecdsa
  | unknown (code : UInt8)
deriving DecidableEq

namespace SignatureAlgorithm

def ofCode : UInt8 → SignatureAlgorithm
  | 0 => .anonymous
  | 1 => .rsa
  | 2 => .dsa
  | 3 => .ecdsa
  | code => .unknown code

def code : SignatureAlgorithm → UInt8
  | .anonymous => 0
  | .rsa => 1
  | .dsa => 2
  | .ecdsa => 3
  | .unknown code => code

def text : SignatureAlgorithm → String
  | .anonymous => "Anonymous"
  | .rsa => "RSA"
  | .dsa => "DSA"
  | .ecdsa => "ECDSA"
  | .unknown code => Text.tagged "Unknown" (toString code.toNat)

instance : Inhabited SignatureAlgorithm := ⟨.unknown 0⟩

@[simp] theorem code_ofCode (v : UInt8) : (ofCode v).code = v := by
  unfold ofCode
  split <;> rfl

end SignatureAlgorithm

structure SignatureScheme where
  hash : HashAlgorithm
  signature : SignatureAlgorithm
deriving DecidableEq

namespace SignatureScheme

def ofCode (v : UInt16) : SignatureScheme where
  hash := .ofCode (v >>> 8).toUInt8
  signature := .ofCode v.toUInt8

def code (s : SignatureScheme) : UInt16 :=
  (s.hash.code.toUInt16 <<< 8) + s.signature.code.toUInt16

def text (s : SignatureScheme) : String :=
  Text.record "SignatureAndHashAlgorithm" [("hash", s.hash.text), ("signature", s.signature.text)]

instance : Inhabited SignatureScheme := ⟨⟨default, default⟩⟩

def rsaSha256 : SignatureScheme := ⟨.sha256, .rsa⟩

end SignatureScheme

end TlsClient
