import TlsClient.Der.CertificateKey
import TlsClient.Proofs.Access.Naturals
import TlsClient.Proofs.Access.Parsing
import TlsClient.Rsa.Encryption

namespace TlsClient

open Wire

theorem Checked.adapt_outcome {ε ε' α : Type} (f : ε → ε') (r : Except ε α) :
    (Checked.outcome r).adapt f = Checked.outcome (r.mapError f) := by
  cases r <;> rfl

namespace PublicKey.Checked

def refuse (e : Natural) : Checked.Attempt Error PublicKey := do
  throw (.certificate (.exponentOutOfRange (← Natural.Checked.bitLength e)))

def ofBytes (modulus exponent : Bytes) : Checked.Attempt Error PublicKey := do
  let n ← (Natural.Checked.ofBytes modulus).adapt .arithmetic
  let e ← (Natural.Checked.ofBytes exponent).adapt .arithmetic
  if n.isZero then throw (.certificate .zeroModulus)
  else
    if h : e.isZero = false then
      -- A key carries the comparison as a proof, so the words are looked at before it is stated.
      let _ ← Natural.Checked.less e n
      if h' : e.less n = true then
        let _ ← Natural.Checked.bitLength n
        return ⟨n, e, h, h'⟩
      else refuse e
    else refuse e

/-- Both numbers are read and compared in range, and refused in the same cases. -/
theorem ofBytes_eq (modulus exponent : Bytes) :
    ofBytes modulus exponent = Checked.outcome (PublicKey.ofBytes modulus exponent) := by
  simp only [ofBytes, refuse, PublicKey.ofBytes, Natural.Checked.ofBytes_eq, Checked.adapt_outcome,
    Natural.Checked.less_eq, Natural.Checked.bitLength_eq, Checked.liftM_bind]
  cases Natural.ofBytes modulus with
  | error fault => rfl
  | ok n =>
    cases Natural.ofBytes exponent with
    | error fault => rfl
    | ok e =>
      change (if n.isZero = true then _ else _) = Checked.outcome (if n.isZero = true then _ else _)
      by_cases hn : n.isZero = true
      · rw [if_pos hn, if_pos hn]
        rfl
      · rw [if_neg hn, if_neg hn]
        by_cases h : e.isZero = false
        · by_cases h' : e.less n = true
          · rw [dif_pos h, dif_pos h', dif_pos ⟨h, h'⟩]
            rfl
          · rw [dif_pos h, dif_neg h', dif_neg fun hboth => h' hboth.2]
            rfl
        · rw [dif_neg h, dif_neg fun hboth => h hboth.1]
          rfl

def raise (key : PublicKey) (bs : Bytes) : Checked.Attempt ArithmeticError Bytes := do
  let x ← Natural.Checked.ofBytes bs
  let y ← Natural.Checked.modPow x key.exponent key.modulus
  Natural.Checked.toBytes y key.byteLength

/-- The result is as long as the modulus, so there is room to write it. -/
theorem raise_eq (key : PublicKey) (bs : Bytes) :
    raise key bs = Checked.outcome (key.raise bs) := by
  simp only [raise, PublicKey.raise, Natural.Checked.ofBytes_eq, Natural.Checked.modPow_eq,
    Natural.Checked.toBytes_eq, Checked.outcome_bind]

variable {ρ : Type} [RandomSource ρ]

def pad (fuel : Nat) (message : Bytes) (target : Nat) (r : ρ) : Checked (Except Stop Bytes × ρ) := do
  let fits ←
    if target < paddingOverhead then pure false
    else (fun room => decide (message.length ≤ room)) <$> Checked.difference target paddingOverhead
  if fits then
    let rest ← Checked.difference target message.length
    let count ← Checked.difference rest 3
    match nonZeroBytes fuel count r with
    | (some random, r) => return (.ok ([0, 2] ++ random ++ [0] ++ message), r)
    | (none, r) => return (.error .unfinished, r)
  else return (.error (.failed (.crypto (.messageTooLong message.length target))), r)

/-- A message that is too long is refused before its length is subtracted from anything. -/
theorem pad_eq (fuel : Nat) (message : Bytes) (target : Nat) (r : ρ) :
    pad fuel message target r = .ok (PublicKey.pad fuel message target r) := by
  by_cases hroom : target < paddingOverhead
  · rw [pad, PublicKey.pad, if_pos hroom, if_pos (Or.inl hroom)]
    rfl
  · rw [pad, PublicKey.pad, if_neg hroom, Checked.difference_eq (Nat.not_lt.1 hroom), Checked.map_ok,
      Checked.ok_bind]
    dsimp only
    by_cases hfits : message.length ≤ target - paddingOverhead
    · have hmessage : message.length ≤ target := Nat.le_trans hfits (Nat.sub_le _ _)
      have hfixed : 3 ≤ target - message.length := by
        rw [paddingOverhead] at hroom hfits
        omega
      rw [if_pos (decide_eq_true hfits), if_neg fun h => h.elim hroom (Nat.not_lt.2 hfits),
        Checked.difference_eq hmessage, Checked.ok_bind, Checked.difference_eq hfixed, Checked.ok_bind]
      rcases nonZeroBytes fuel (target - message.length - 3) r with ⟨_ | random, r⟩ <;> rfl
    · rw [if_neg fun h => hfits (of_decide_eq_true h), if_pos (Or.inr (Nat.not_le.1 hfits))]
      rfl

def encrypt (key : PublicKey) (fuel : Nat) (message : Bytes) (r : ρ) :
    Checked (Except Stop Bytes × ρ) := do
  match ← pad fuel message key.byteLength r with
  | (.ok padded, r) => return ((← (raise key padded).run).mapError fun e => .failed (.arithmetic e), r)
  | (.error e, r) => return (.error e, r)

/-- Encryption stays in range for every key, message and source. -/
theorem encrypt_eq (key : PublicKey) (fuel : Nat) (message : Bytes) (r : ρ) :
    encrypt key fuel message r = .ok (key.encrypt fuel message r) := by
  rw [encrypt, pad_eq, Checked.ok_bind, PublicKey.encrypt]
  rcases PublicKey.pad fuel message key.byteLength r with ⟨e | padded, r⟩
  · rfl
  · dsimp only
    rw [raise_eq]
    rfl

end PublicKey.Checked

namespace Der.Value.Checked

def parseLength : CheckedParser Nat := do
  let first ← Parser.Checked.byte
  if first < 0x80 then return first.toNat else
    let count := first.toNat - 0x80
    if count = 0 ∨ count > 4 then throw (.fatal .lengthValue) else Parser.Checked.number count

@[simp] theorem parseLength_eq : parseLength = Parser.lift Value.parseLength := by
  have hfatal : (throw (.fatal .lengthValue) : CheckedParser Nat) =
      Parser.lift (Parser.fatal .lengthValue) := rfl
  simp [parseLength, Value.parseLength, hfatal]

def parse : CheckedParser Value := do
  let code ← Parser.Checked.byte
  if code &&& 0x1F = 0x1F then throw (.fatal .tag) else
    let length ← parseLength
    let content ← Parser.Checked.take length
    return ⟨code, content⟩

@[simp] theorem parse_eq : parse = Parser.lift Value.parse := by
  have hfatal : (throw (.fatal .tag) : CheckedParser Value) = Parser.lift (Parser.fatal .tag) := rfl
  simp [parse, Value.parse, hfatal]

def parseExact (bs : Bytes) : Checked.Attempt Error Value := do
  match ← liftM (m := TlsClient.Checked) (parse bs).run with
  | .error e => throw (.ofFailure e)
  | .ok (v, []) => return v
  | .ok (_, rest) => throw (.certificate (.trailingBytes rest.length))

theorem parseExact_eq (bs : Bytes) : parseExact bs = Checked.outcome (Value.parseExact bs) := by
  rw [parseExact, parse_eq, Value.parseExact]
  show (match Value.parse bs with | .error e => _ | .ok (v, []) => _ | .ok (_, rest) => _ :
    Checked.Attempt Error Value) = _
  rcases Value.parse bs with e | ⟨v, _ | ⟨b, rest⟩⟩ <;> rfl

def items (bs : Bytes) : Checked (List (Except Error Value)) :=
  if bs.isEmpty then return []
  else
    match h : (parse bs).run with
    | .error access => .error access
    | .ok (.error e) => return [.error (.ofFailure e)]
    | .ok (.ok (v, rest)) =>
      have : rest.length < bs.length := by
        rw [parse_eq] at h
        exact length_lt_of_parse (Except.ok.inj h)
      return .ok v :: (← items rest)
termination_by bs.length

/-- Each value ends where the bytes allow it to, so the next one begins inside of them. -/
theorem items_eq (bs : Bytes) : items bs = .ok (Value.items bs) := by
  have hrun (bs : Bytes) : (parse bs).run = .ok (Value.parse bs) := by
    rw [parse_eq]
    rfl
  -- The induction is on the values that are there, as the reading goes through them.
  fun_induction Value.items bs with
  | case1 bs hempty => rw [items, if_pos hempty, Checked.pure_eq]
  | case2 bs hempty e hparse =>
    rw [items, if_neg hempty]
    split
    all_goals rename_i h; rw [hrun, hparse] at h; cases h
    rfl
  | case3 bs hempty v rest hparse ih =>
    rw [items, if_neg hempty]
    split
    all_goals rename_i h; rw [hrun, hparse] at h; cases h
    rw [ih]
    rfl

def childItems (v : Value) : Checked (List (Except Error Value)) := do
  if v.isConstructed then items v.content else return []

theorem childItems_eq (v : Value) : childItems v = .ok v.childItems := by
  rw [childItems, items_eq, Value.childItems]
  split <;> rfl

def children (v : Value) : Checked.Attempt Error (List Value) := do
  Checked.outcome ((← childItems v).mapM id)

theorem children_eq (v : Value) : children v = Checked.outcome v.children := by
  rw [children, childItems_eq, Checked.liftM_bind, Value.children]

def firstChild? (v : Value) : Checked (Option Value) := do
  match ← childItems v with
  | .ok c :: _ => return some c
  | _ => return none

theorem firstChild?_eq (v : Value) : firstChild? v = .ok v.firstChild? := by
  rw [firstChild?, childItems_eq, Checked.ok_bind, Value.firstChild?]
  rcases v.childItems with _ | ⟨e | c, cs⟩ <;> rfl

def isRsaKeyInfo (v : Value) : Checked Bool := do
  if v.tag = .sequence then
    match ← firstChild? v with
    | none => return false
    | some algorithm =>
      if algorithm.tag = .sequence then
        match ← firstChild? algorithm with
        | none => return false
        | some identifier =>
          return identifier.tag = .objectIdentifier && identifier.content = rsaEncryption
      else return false
  else return false

/-- The search for the algorithm goes two values deep and takes nothing from outside of them. -/
theorem isRsaKeyInfo_eq (v : Value) : isRsaKeyInfo v = .ok v.isRsaKeyInfo := by
  unfold isRsaKeyInfo Value.isRsaKeyInfo
  by_cases hv : v.tag = .sequence
  · rw [if_pos hv, decide_eq_true hv, Bool.true_and, firstChild?_eq, Checked.ok_bind]
    rcases v.firstChild? with _ | algorithm
    · rfl
    · dsimp only
      by_cases halgorithm : algorithm.tag = .sequence
      · rw [if_pos halgorithm, decide_eq_true halgorithm, Bool.true_and, firstChild?_eq,
          Checked.ok_bind]
        rcases algorithm.firstChild? with _ | identifier <;> rfl
      · rw [if_neg halgorithm, decide_eq_false halgorithm]
        rfl
  · rw [if_neg hv, decide_eq_false hv]
    rfl

def rsaKey (info : Value) : Checked.Attempt Error PublicKey := do
  match ← children info with
  | [_, key] =>
    let sequence ← parseExact (← Checked.outcome key.bitString)
    Checked.outcome (sequence.expect .sequence)
    match ← children sequence with
    | [modulus, exponent] =>
      PublicKey.Checked.ofBytes (← Checked.outcome modulus.unsignedInteger)
        (← Checked.outcome exponent.unsignedInteger)
    | _ => throw (.certificate .keyShape)
  | _ => throw (.certificate .keyInfoShape)

theorem rsaKey_eq (info : Value) : rsaKey info = Checked.outcome info.rsaKey := by
  rw [rsaKey, children_eq, Value.rsaKey, Checked.outcome_bind]
  refine bind_congr fun elements => ?_
  -- Only two elements are looked into; any other number of them is refused.
  rcases elements with _ | ⟨algorithm, _ | ⟨key, _ | ⟨extra, elements⟩⟩⟩
  · rfl
  · rfl
  · simp only [parseExact_eq, children_eq, Checked.outcome_bind]
    refine bind_congr fun bits => bind_congr fun sequence => bind_congr fun _ =>
      bind_congr fun numbers => ?_
    rcases numbers with _ | ⟨modulus, _ | ⟨exponent, _ | ⟨extra, numbers⟩⟩⟩
    · rfl
    · rfl
    · simp only [PublicKey.Checked.ofBytes_eq, Checked.outcome_bind]
    · rfl
  · rfl

end Der.Value.Checked

namespace Der.Checked

def certificateKey (certificate : Bytes) : Checked.Attempt Error PublicKey := do
  let outer ← Value.Checked.parseExact certificate
  Checked.outcome (outer.expect .sequence)
  match ← liftM (Value.Checked.childItems outer) with
  | [] => throw (.certificate .empty)
  | .error e :: _ => throw e
  | .ok body :: _ =>
    Checked.outcome (body.expect .sequence)
    match ← liftM ((← Value.Checked.children body).findM? Value.Checked.isRsaKeyInfo) with
    | none => throw (.certificate .noRsaKey)
    | some info => Value.Checked.rsaKey info

/-- The key of a certificate is found in range, for any byte string in place of one. -/
theorem certificateKey_eq (certificate : Bytes) :
    certificateKey certificate = Checked.outcome (Der.certificateKey certificate) := by
  have hfind (elements : List Value) : elements.findM? Value.Checked.isRsaKeyInfo =
      .ok (elements.find? Value.isRsaKeyInfo) := by
    rw [funext Value.Checked.isRsaKeyInfo_eq]
    exact List.findM?_pure Value.isRsaKeyInfo elements
  simp only [certificateKey, Der.certificateKey, Value.Checked.parseExact_eq,
    Value.Checked.childItems_eq, Checked.liftM_bind, Checked.outcome_bind]
  refine bind_congr fun outer => bind_congr fun _ => ?_
  rcases outer.childItems with _ | ⟨e | body, rest⟩
  · rfl
  · rfl
  · simp only [Value.Checked.children_eq, hfind, Checked.liftM_bind, Checked.outcome_bind]
    refine bind_congr fun _ => bind_congr fun elements => ?_
    cases elements.find? Value.isRsaKeyInfo with
    | none => rfl
    | some info => exact Value.Checked.rsaKey_eq info

end Der.Checked
end TlsClient
