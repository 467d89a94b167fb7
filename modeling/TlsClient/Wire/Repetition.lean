import TlsClient.Wire.Parser

/-!
Repetition of a parser into a list of bounded size. The bound is the number of free places, so the
peer cannot make the list grow; an item beyond the last place is a fatal failure and is not dropped.
-/

namespace TlsClient.Wire.Parser

variable {α : Type}

/-- Items until the first recoverable failure, at most `places` of them. An item that consumes
nothing is refused. -/
def many0 (item : Parser α) : (places : Nat) → Parser (List α)
  | 0 => fun input =>
    match item input with
    -- The item may be something else, for whoever reads on; no bytes are taken.
    | .error (.recoverable _) => .ok ([], input)
    | .error e => .error e
    | .ok (_, rest) =>
      if rest.length = input.length then .error (.recoverable .many0) else .error (.fatal .tooLarge)
  | places + 1 => fun input =>
    match item input with
    | .error (.recoverable _) => .ok ([], input)
    | .error e => .error e
    | .ok (a, rest) =>
      if rest.length = input.length then .error (.recoverable .many0) else
        match many0 item places rest with
        | .ok (as, rest) => .ok (a :: as, rest)
        | .error e => .error e

def many1 (item : Parser α) (places : Nat) : Parser (List α) := fun input =>
  match many0 item places input with
  | .ok ([], _) => .error (.recoverable .many1)
  | r => r

end TlsClient.Wire.Parser
