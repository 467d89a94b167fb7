import TlsClient.Error
import TlsClient.Proofs.Access.Basic
import TlsClient.Wire.Repetition

/-!
Parsing with every access checked. A checked parser that never stops is the `lift` of a parser, and
lifting commutes with putting parsers together. So what has to be seen is that the few parts stay in
bounds which take bytes off the input or collect items in a place of bounded size.
-/

namespace TlsClient.Wire

/-- A parser that stops where it would leave its input or the place for its result. -/
abbrev CheckedParser (α : Type) := StateT Bytes (Checked.Attempt Failure) α

namespace Parser

variable {α β : Type}

def lift (p : Parser α) : CheckedParser α :=
  fun input => Checked.outcome (p input)

@[simp] theorem lift_pure (a : α) : lift (pure a : Parser α) = pure a := rfl

theorem get_bind (f : Bytes → CheckedParser α) (input : Bytes) :
    (get >>= f) input = f input input := rfl

@[simp] theorem lift_get : lift (get : Parser Bytes) = get := rfl

@[simp] theorem lift_bind (p : Parser α) (f : α → Parser β) :
    lift (p >>= f) = lift p >>= fun a => lift (f a) := by
  funext input
  exact Checked.outcome_bind (p input) fun r => f r.1 r.2

@[simp] theorem lift_map (f : α → β) (p : Parser α) : lift (f <$> p) = f <$> lift p := by
  rw [map_eq_pure_bind, map_eq_pure_bind, lift_bind]
  rfl

@[simp] theorem lift_ite (c : Prop) [Decidable c] (p q : Parser α) :
    lift (if c then p else q) = if c then lift p else lift q :=
  apply_ite lift c p q

theorem lift_eq_ok {p : Parser α} {input rest : Bytes} {a : α} (h : p input = .ok (a, rest)) :
    lift p input = .ok (.ok (a, rest)) :=
  congrArg Except.ok h

namespace Checked

def access (x : TlsClient.Checked α) : CheckedParser α :=
  StateT.lift (ExceptT.lift x)

@[simp] theorem access_ok (a : α) : access (.ok a) = pure a := rfl

def peek (p : CheckedParser α) : CheckedParser (Except Failure (α × Bytes)) := do
  access (p (← get)).run

/-- Looking at the input takes nothing off it. -/
theorem peek_bind (p : Parser α) (f : Except Failure (α × Bytes) → CheckedParser β)
    (input : Bytes) : (peek (lift p) >>= f) input = f (p input) input := rfl

def take (n : Nat) : CheckedParser Bytes := do
  let input ← get
  if n ≤ input.length then
    let (taken, rest) ← access (Checked.splitAt n input)
    set rest
    return taken
  else throw (.recoverable .eof)

@[simp] theorem take_eq (n : Nat) : take n = lift (Parser.take n) := by
  funext input
  by_cases h : n ≤ input.length
  · have htake : Parser.take n input = .ok (input.take n, input.drop n) :=
      if_pos (List.length_take_of_le h)
    rw [lift_eq_ok htake]
    show (if n ≤ input.length then _ else _ : CheckedParser Bytes) input = _
    rw [if_pos h, Checked.splitAt_eq h]
    rfl
  · have htake : Parser.take n input = .error (.recoverable .eof) :=
      if_neg fun h' => h (by rw [← h', List.length_take]; exact Nat.min_le_right _ _)
    show (if n ≤ input.length then _ else _ : CheckedParser Bytes) input = _
    rw [if_neg h, lift, htake]
    rfl

/-- What follows may rely on the number of bytes that were taken. -/
theorem take_bind_congr {n : Nat} {f g : Bytes → CheckedParser α}
    (h : ∀ bs : Bytes, bs.length = n → f bs = g bs) :
    lift (Parser.take n) >>= f = lift (Parser.take n) >>= g := by
  funext input
  cases htake : Parser.take n input with
  | ok r =>
    obtain ⟨taken, rest⟩ := r
    have hlength := (Parser.take_eq_ok_iff.1 htake).1
    have hbind (k : Bytes → CheckedParser α) : (lift (Parser.take n) >>= k) input = k taken rest := by
      show (Checked.outcome (Parser.take n input) >>= fun r => k r.1 r.2) = k taken rest
      rw [htake]
      rfl
    rw [hbind, hbind, h taken hlength]
  | error e =>
    have hbind (k : Bytes → CheckedParser α) :
        (lift (Parser.take n) >>= k) input = Checked.outcome (.error e) := by
      show (Checked.outcome (Parser.take n input) >>= fun r => k r.1 r.2) = _
      rw [htake]
      rfl
    rw [hbind, hbind]

def byte : CheckedParser UInt8 := do
  return (← take 1).headD 0

@[simp] theorem byte_eq : byte = lift Parser.byte := by
  rw [byte, take_eq]
  funext input
  cases input <;> rfl

def number (n : Nat) : CheckedParser Nat :=
  Bytes.toNat <$> take n

@[simp] theorem number_eq (n : Nat) : number n = lift (Parser.number n) := by
  rw [number, take_eq, Parser.number, lift_map]

def word16 : CheckedParser UInt16 :=
  UInt16.ofNat <$> number 2

@[simp] theorem word16_eq : word16 = lift Parser.word16 := by
  rw [word16, number_eq, Parser.word16, lift_map]

def word32 : CheckedParser UInt32 :=
  UInt32.ofNat <$> number 4

@[simp] theorem word32_eq : word32 = lift Parser.word32 := by
  rw [word32, number_eq, Parser.word32, lift_map]

def block (width : Nat) : CheckedParser Bytes := do
  take (← number width)

@[simp] theorem block_eq (width : Nat) : block width = lift (Parser.block width) := by
  simp only [block, Parser.block, lift_bind, number_eq, take_eq]

def within (bs : Bytes) (p : CheckedParser α) : CheckedParser α := do
  match ← access (p bs).run with
  | .ok (a, []) => return a
  | .ok (_, _ :: _) => throw (.fatal .lengthValue)
  | .error e => throw e

@[simp] theorem within_eq (bs : Bytes) (p : Parser α) :
    within bs (lift p) = lift (Parser.within bs p) := by
  funext input
  show (access (.ok (p bs)) >>= _ : CheckedParser α) input = Checked.outcome (Parser.within bs p input)
  rw [access_ok, pure_bind]
  unfold Parser.within
  rcases p bs with e | ⟨a, _ | ⟨b, bs⟩⟩ <;> rfl

/-- Collects items behind the ones held in a place for `capacity` of them, `places` of which are free.
An item is only added while a place is free. -/
def many0 (item : CheckedParser α) (capacity : Nat) :
    (places : Nat) → (held : List α) → CheckedParser (List α)
  | 0, held => do
    match ← peek item with
    | .error (.recoverable _) => return held
    | .error e => throw e
    | .ok (_, rest) =>
      if rest.length = (← get).length then throw (.recoverable .many0) else throw (.fatal .tooLarge)
  | places + 1, held => do
    match ← peek item with
    | .error (.recoverable _) => return held
    | .error e => throw e
    | .ok (a, rest) =>
      if rest.length = (← get).length then throw (.recoverable .many0)
      else
        let held ← access (Checked.extend capacity held [a])
        set rest
        many0 item capacity places held

/-- A repetition puts items into places that are free, and its held items and free places never
exceed the capacity. -/
theorem many0_from (item : Parser α) {capacity : Nat} (places : Nat) (held : List α) (input : Bytes)
    (h : held.length + places ≤ capacity) :
    many0 (lift item) capacity places held input =
      Checked.outcome ((fun r => (held ++ r.1, r.2)) <$> Parser.many0 item places input) := by
  -- The induction is on the free places, one of which is taken up by each item that is added.
  induction places generalizing held input with
  | zero =>
    rw [many0, peek_bind]
    simp only [Parser.many0]
    rcases item input with (code | code | _) | ⟨a, rest⟩
    · show Checked.outcome (.ok (held, input)) = Checked.outcome (.ok (held ++ [], input))
      rw [List.append_nil]
    · rfl
    · rfl
    · dsimp only
      rw [get_bind]
      split <;> rfl
  | succ places ih =>
    rw [many0, peek_bind]
    simp only [Parser.many0]
    rcases item input with (code | code | _) | ⟨a, rest⟩
    · show Checked.outcome (.ok (held, input)) = Checked.outcome (.ok (held ++ [], input))
      rw [List.append_nil]
    · rfl
    · rfl
    · have hnext := ih (held ++ [a]) rest (by rw [List.length_append, List.length_singleton]; omega)
      dsimp only
      rw [get_bind]
      split
      · rfl
      · rw [Checked.extend_singleton_eq (by omega), access_ok, pure_bind]
        show many0 (lift item) capacity places (held ++ [a]) rest = _
        rw [hnext]
        rcases Parser.many0 item places rest with e | ⟨as, left⟩
        · rfl
        · show Checked.outcome (.ok (held ++ [a] ++ as, left)) =
            Checked.outcome (.ok (held ++ a :: as, left))
          rw [List.append_assoc, List.singleton_append]

/-- An empty place with room for all the items that are ever added. -/
@[simp] theorem many0_eq (item : Parser α) (capacity : Nat) :
    many0 (lift item) capacity capacity [] = lift (Parser.many0 item capacity) := by
  funext input
  rw [many0_from item capacity [] input (Nat.le_of_eq (Nat.zero_add _))]
  unfold lift
  rcases Parser.many0 item capacity input with e | ⟨as, rest⟩ <;> rfl

def many1 (item : CheckedParser α) (capacity : Nat) : CheckedParser (List α) := do
  match ← many0 item capacity capacity [] with
  | [] => throw (.recoverable .many1)
  | as => return as

@[simp] theorem many1_eq (item : Parser α) (capacity : Nat) :
    many1 (lift item) capacity = lift (Parser.many1 item capacity) := by
  funext input
  rw [many1, many0_eq]
  show (Checked.outcome (Parser.many0 item capacity input) >>= _ : Checked.Attempt _ _) =
    Checked.outcome (Parser.many1 item capacity input)
  unfold Parser.many1
  rcases Parser.many0 item capacity input with e | ⟨_ | ⟨a, as⟩, rest⟩ <;> rfl

def parse (p : CheckedParser α) (bs : Bytes) : Checked.Attempt Error α := do
  match ← liftM (m := TlsClient.Checked) (p bs).run with
  | .ok (a, _) => return a
  | .error e => throw (.ofFailure e)

/-- A lifted parser stops nowhere, so running it is running the plain one. -/
theorem parse_lift (p : Parser α) (bs : Bytes) : parse (lift p) bs = Checked.outcome (p.parse bs) := by
  show (match p bs with | .ok (a, _) => _ | .error e => _ : Checked.Attempt Error α) = _
  unfold Parser.parse
  cases p bs <;> rfl

end Checked
end Parser
end TlsClient.Wire
