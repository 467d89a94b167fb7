import TlsClient.Random.Source

namespace TlsClient

structure ScriptedSource where
  script : Bytes
  next : UInt8
  used : Nat
deriving DecidableEq

namespace ScriptedSource

def ofBytes (script : Bytes) : ScriptedSource :=
  ⟨script, 1, 0⟩

def step (s : ScriptedSource) : UInt8 × ScriptedSource :=
  match s.script with
  | b :: rest => (b, { s with script := rest, used := s.used + 1 })
  -- Zero never comes up again, so padding that needs other bytes is always found.
  | [] => (s.next, { s with next := if s.next = 255 then 1 else s.next + 1, used := s.used + 1 })

def fill (s : ScriptedSource) : (n : Nat) → Bytes × ScriptedSource
  | 0 => ([], s)
  | n + 1 =>
    let (b, s) := s.step
    let (bs, s) := s.fill n
    (b :: bs, s)

theorem length_fill (s : ScriptedSource) (n : Nat) : (s.fill n).1.length = n := by
  induction n generalizing s with
  | zero => rfl
  | succ n ih => simp [fill, ih]

def word (s : ScriptedSource) : UInt32 × ScriptedSource :=
  let (bs, s) := s.fill 4
  (UInt32.ofNat (Bytes.toNat bs.reverse), s)

instance : RandomSource ScriptedSource where
  word := word
  fill := fill
  length_fill := length_fill

end ScriptedSource
end TlsClient
