import TlsClient.Aes.Block

/-!
Accesses to regions of bounded size. Lists have no bounds to break: taking more than there is gives
what there is, and a difference below zero is zero. A `Checked` computation makes every bound visible.
It names each access that it is about to make, with the sizes that decide whether it is in range, and
stops with the access if it is not; so a computation that does not stop has kept within all bounds.

Accesses at places that the text of an algorithm fixes, into arrays whose size it fixes as well, depend
on no input and are left out: the tables and rounds of the ciphers and of the hash.
-/

namespace TlsClient

/-- An access with the sizes that it depends on. -/
inductive Access where
  /-- Cutting `length` elements in two after the first `position` ones. -/
  | split (position length : Nat)
  /-- Taking the elements from `start` up to `stop` out of `length`. -/
  | slice (start stop length : Nat)
  /-- Element `i` of `length`. -/
  | index (i length : Nat)
  /-- Writing `source` elements over `target` ones, which takes equal numbers. -/
  | copy (source target : Nat)
  /-- Adding elements to the ones `held` in a place for at most `capacity`. -/
  | push (held added capacity : Nat)
  /-- The difference of two sizes, which have no negative numbers. -/
  | difference (a b : Nat)
deriving DecidableEq

def Access.InRange : Access → Prop
  | .split position length => position ≤ length
  | .slice start stop length => start ≤ stop ∧ stop ≤ length
  | .index i length => i < length
  | .copy source target => source = target
  | .push held added capacity => held + added ≤ capacity
  | .difference a b => b ≤ a

instance : DecidablePred Access.InRange
  | .split position length => inferInstanceAs (Decidable (position ≤ length))
  | .slice start stop length => inferInstanceAs (Decidable (start ≤ stop ∧ stop ≤ length))
  | .index i length => inferInstanceAs (Decidable (i < length))
  | .copy source target => inferInstanceAs (Decidable (source = target))
  | .push held added capacity => inferInstanceAs (Decidable (held + added ≤ capacity))
  | .difference a b => inferInstanceAs (Decidable (b ≤ a))

@[simp] theorem Access.inRange_split {position length : Nat} :
    (Access.split position length).InRange ↔ position ≤ length := Iff.rfl

@[simp] theorem Access.inRange_slice {start stop length : Nat} :
    (Access.slice start stop length).InRange ↔ start ≤ stop ∧ stop ≤ length := Iff.rfl

@[simp] theorem Access.inRange_index {i length : Nat} :
    (Access.index i length).InRange ↔ i < length := Iff.rfl

@[simp] theorem Access.inRange_copy {source target : Nat} :
    (Access.copy source target).InRange ↔ source = target := Iff.rfl

@[simp] theorem Access.inRange_push {held added capacity : Nat} :
    (Access.push held added capacity).InRange ↔ held + added ≤ capacity := Iff.rfl

@[simp] theorem Access.inRange_difference {a b : Nat} :
    (Access.difference a b).InRange ↔ b ≤ a := Iff.rfl

/-- A computation that stops with the first access that is out of range. -/
abbrev Checked (α : Type) := Except Access α

namespace Checked

variable {α β : Type}

@[simp] theorem pure_eq (a : α) : (pure a : Checked α) = .ok a := rfl

@[simp] theorem ok_bind (a : α) (f : α → Checked β) : (.ok a : Checked α) >>= f = f a := rfl

@[simp] theorem map_ok (f : α → β) (a : α) : f <$> (.ok a : Checked α) = .ok (f a) := rfl

def touch (a : Access) : Checked Unit :=
  if a.InRange then .ok () else .error a

@[simp] theorem touch_eq {a : Access} (h : a.InRange) : touch a = .ok () :=
  if_pos h

def touchAll : List Access → Checked Unit
  | [] => .ok ()
  | a :: as => do
    touch a
    touchAll as

/-- Accesses that are all in range go through. -/
theorem touchAll_eq {as : List Access} (h : ∀ a ∈ as, a.InRange) : touchAll as = .ok () := by
  induction as with
  | nil => rfl
  | cons a as ih =>
    obtain ⟨ha, has⟩ := List.forall_mem_cons.1 h
    rw [touchAll, touch_eq ha, ok_bind, ih has]

def loop (n : Nat) (pass : Nat → List Access) : Checked Unit :=
  touchAll ((List.range n).flatMap pass)

/-- A loop goes through if each of its passes stays in range. -/
theorem loop_eq {n : Nat} {pass : Nat → List Access} (h : ∀ i < n, ∀ a ∈ pass i, a.InRange) :
    loop n pass = .ok () := by
  apply touchAll_eq
  intro a ha
  obtain ⟨i, hi, ha⟩ := List.mem_flatMap.1 ha
  exact h i (List.mem_range.1 hi) a ha

/-! What is taken out of a list, and what is put into a place of bounded size. -/

section
variable {position start stop capacity n a b : Nat} {xs source target held added : List α} {bs : Bytes}

def splitAt (position : Nat) (xs : List α) : Checked (List α × List α) := do
  touch (.split position xs.length)
  return (xs.take position, xs.drop position)

/-- Cutting is in range up to the end of the list, and gives what the unchecked cut gives. -/
theorem splitAt_eq (h : position ≤ xs.length) :
    splitAt position xs = .ok (xs.take position, xs.drop position) := by
  simp [splitAt, h]

def slice (start stop : Nat) (xs : List α) : Checked (List α) := do
  touch (.slice start stop xs.length)
  return (xs.take stop).drop start

theorem slice_eq (h : start ≤ stop) (h' : stop ≤ xs.length) :
    slice start stop xs = .ok ((xs.take stop).drop start) := by
  simp [slice, h, h']

theorem slice_zero (h : stop ≤ xs.length) : slice 0 stop xs = .ok (xs.take stop) :=
  slice_eq (Nat.zero_le _) h

theorem slice_length (h : start ≤ xs.length) : slice start xs.length xs = .ok (xs.drop start) := by
  rw [slice_eq h (Nat.le_refl _), List.take_length]

def overwrite (start stop : Nat) (source target : List α) : Checked (List α) := do
  touch (.slice start stop target.length)
  touch (.copy source.length (stop - start))
  return target.take start ++ source ++ target.drop stop

/-- Writing over a part of an array needs as many elements as the part has. -/
theorem overwrite_eq (h : start ≤ stop) (h' : stop ≤ target.length)
    (hsource : source.length = stop - start) :
    overwrite start stop source target = .ok (target.take start ++ source ++ target.drop stop) := by
  simp [overwrite, h, h', hsource]

/-- Writes over the elements from `start` up to `stop` in an array of `capacity` elements and gives
what was written so far, which ends there. -/
def fill (capacity start stop : Nat) (source written : List α) : Checked (List α) := do
  touch (.slice start stop capacity)
  touch (.copy source.length (stop - start))
  return written ++ source

/-- Writing behind what stands in an array needs room up to its capacity. -/
theorem fill_eq (h : start ≤ stop) (h' : stop ≤ capacity) (hsource : source.length = stop - start)
    (written : List α) : fill capacity start stop source written = .ok (written ++ source) := by
  simp [fill, h, h', hsource]

def store (capacity : Nat) (xs : List α) : Checked (List α) :=
  fill capacity 0 xs.length xs []

theorem store_eq (h : xs.length ≤ capacity) : store capacity xs = .ok xs :=
  fill_eq (Nat.zero_le _) h rfl []

def extend (capacity : Nat) (held added : List α) : Checked (List α) := do
  touch (.push held.length added.length capacity)
  return held ++ added

/-- There is room for what is added as long as both together are within the capacity. -/
theorem extend_eq (h : held.length + added.length ≤ capacity) :
    extend capacity held added = .ok (held ++ added) := by
  simp [extend, h]

theorem extend_singleton_eq {x : α} (h : held.length < capacity) :
    extend capacity held [x] = .ok (held ++ [x]) :=
  extend_eq h

def difference (a b : Nat) : Checked Nat := do
  touch (.difference a b)
  return a - b

/-- A size may be subtracted from one that is at least as large. -/
theorem difference_eq (h : b ≤ a) : difference a b = .ok (a - b) := by
  simp [difference, h]

def octets (n : Nat) (bs : Bytes) : Checked (Octets n) := do
  touch (.copy bs.length n)
  return .ofBytes n bs

theorem octets_eq (h : bs.length = n) : octets n bs = .ok (.ofBytes n bs) := by
  simp [octets, h]

def block (bs : Bytes) : Checked Aes.Block := do
  touch (.copy bs.length Aes.blockLength)
  return .ofBytes bs

theorem block_eq (h : bs.length = Aes.blockLength) : block bs = .ok (.ofBytes bs) := by
  simp [block, h]

end

/-- Out of range means stopping there, with the sizes that say why. -/
example : slice 2 5 [7, 8, 9] = .error (.slice 2 5 3) := rfl

/-! ### Results that may also be refusals -/

abbrev Attempt (ε α : Type) := ExceptT ε Checked α

variable {ε : Type}

def outcome (r : Except ε α) : Attempt ε α :=
  (.ok r : Checked (Except ε α))

/-- Inside an attempt, accesses that are in range are passed over. -/
@[simp] theorem liftM_bind (a : α) (f : α → Attempt ε β) :
    (liftM (.ok a : Checked α) : Attempt ε α) >>= f = f a := rfl

theorem outcome_ok (a : α) : outcome (.ok a : Except ε α) = pure a := rfl

theorem outcome_bind (r : Except ε α) (f : α → Except ε β) :
    outcome (r >>= f) = outcome r >>= fun a => outcome (f a) := by
  cases r <;> rfl

end Checked
end TlsClient
