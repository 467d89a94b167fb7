import TlsClient.Network.Recorded
import TlsClient.Record.Reader

namespace TlsClient

open Network

/-- A map between transports that their operations go along with. -/
structure Network.Transport.Commutes {σ τ : Type} [Transport σ] [Transport τ] (f : σ → τ) : Prop where
  connect : ∀ t peer, Transport.connect (f t) peer =
    ((Transport.connect t peer).1, f (Transport.connect t peer).2)
  send : ∀ t id bs, Transport.send (f t) id bs =
    ((Transport.send t id bs).1, f (Transport.send t id bs).2)
  recv : ∀ t id limit, Transport.recv (f t) id limit =
    ((Transport.recv t id limit).1, f (Transport.recv t id limit).2)
  isClosed : ∀ t id, Transport.isClosed (f t) id = Transport.isClosed t id
  close : ∀ t id, Transport.close (f t) id =
    ((Transport.close t id).1, f (Transport.close t id).2)
  poll : ∀ t, Transport.poll (f t) = f (Transport.poll t)

namespace Network.Transport.Commutes

variable {τ : Type} [Transport τ]

theorem id : Commutes (fun t : τ => t) :=
  ⟨fun _ _ => rfl, fun _ _ _ => rfl, fun _ _ _ => rfl, fun _ _ => rfl, fun _ _ => rfl, fun _ => rfl⟩

/-- The record of a transport makes no difference to it. -/
theorem inner : Commutes (Recorded.inner : Recorded τ → τ) where
  connect _ _ := rfl
  send _ _ _ := rfl
  recv t id limit := by
    simp only [Transport.recv, Recorded.recv]
    rcases Transport.recv t.inner id limit with ⟨bs | e, t⟩ <;> rfl
  isClosed _ _ := rfl
  close _ _ := rfl
  poll _ := rfl

end Network.Transport.Commutes

namespace RecordReader

variable {σ τ : Type} [Transport σ] [Transport τ] {id : LinkId} {polls : Nat} {r : RecordReader}

def attempt (id : LinkId) (t : τ) : Except Error Bytes × τ :=
  match Transport.recv t id receiveLimit with
  | (.error e, t) => (.error (.transport e), t)
  | (.ok [], t) =>
    if Transport.isClosed t id then (.error .connectionClosed, t) else (.ok [], Transport.poll t)
  | (.ok bs, t) => (.ok bs, t)

@[simp] theorem append_nil (r : RecordReader) : r.append [] = r := by
  rw [append, List.append_nil]

/-- Waiting with one poll more is an attempt, unless the reader has its answer already. -/
theorem read_succ (id : LinkId) (polls : Nat) (r : RecordReader) (t : τ) :
    read id (polls + 1) r t =
      match r.next? with
      | .ok (some (record, r)) => (.ok record, r, t)
      | .error e => (.error e, r, t)
      | .ok none =>
        match attempt id t with
        | (.error e, t) => (.error e, r, t)
        | (.ok bs, t) => read id polls (r.append bs) t := by
  rw [read]
  rcases r.next? with e | (_ | ⟨record, r'⟩)
  · rfl
  · dsimp only [attempt]
    rcases Transport.recv t id receiveLimit with ⟨e | (_ | ⟨b, bs⟩), u⟩
    · rfl
    · -- Nothing has come, which leaves the reader as it is.
      by_cases hclosed : Transport.isClosed u id = true
      · simp only [if_pos hclosed]
      · simp only [if_neg hclosed, append_nil]
    · rfl
  · rfl

/-- How a reader comes to its answer: at once, after the last attempt that it may make, because an
attempt fails, or after one more attempt. -/
inductive Run (id : LinkId) :
    (polls : Nat) → RecordReader → τ → Except Error Record → RecordReader → τ → Prop
  | found {polls : Nat} {r r' : RecordReader} {t : τ} {record : Record}
    (h : r.next? = .ok (some (record, r'))) : Run id polls r t (.ok record) r' t
  | refused {polls : Nat} {r : RecordReader} {t : τ} {e : Error} (h : r.next? = .error e) :
    Run id polls r t (.error e) r t
  | timeout {r : RecordReader} {t : τ} (h : r.next? = .ok none) : Run id 0 r t (.error .timeout) r t
  | failed {polls : Nat} {r : RecordReader} {t u : τ} {e : Error} (h : r.next? = .ok none)
    (hattempt : attempt id t = (.error e, u)) : Run id (polls + 1) r t (.error e) r u
  | next {polls : Nat} {r r' : RecordReader} {t u t' : τ} {bs : Bytes}
    {answer : Except Error Record} (h : r.next? = .ok none)
    (hattempt : attempt id t = (.ok bs, u)) (hrun : Run id polls (r.append bs) u answer r' t') :
    Run id (polls + 1) r t answer r' t'

/-- Whatever a reader answers, it has come there in one of the ways that `Run` lists. -/
theorem read_run (id : LinkId) (polls : Nat) (r : RecordReader) (t : τ) :
    Run id polls r t (read id polls r t).1 (read id polls r t).2.1 (read id polls r t).2.2 := by
  induction polls generalizing r t with
  | zero =>
    rw [read]
    rcases hnext : r.next? with e | (_ | ⟨record, r'⟩)
    · exact .refused hnext
    · exact .timeout hnext
    · exact .found hnext
  | succ polls ih =>
    rw [read_succ]
    rcases hnext : r.next? with e | (_ | ⟨record, r'⟩)
    · exact .refused hnext
    · dsimp only
      rcases hattempt : attempt id t with ⟨e | bs, u⟩
      · exact .failed hnext hattempt
      · exact .next hnext hattempt (ih (r.append bs) u)
    · exact .found hnext

theorem attempt_map {f : σ → τ} (hf : Transport.Commutes f) (id : LinkId) (t : σ) :
    attempt id (f t) = ((attempt id t).1, f (attempt id t).2) := by
  unfold attempt
  rw [hf.recv]
  rcases Transport.recv t id receiveLimit with ⟨e | (_ | ⟨b, bs⟩), u⟩
  · rfl
  · simp only [hf.isClosed, hf.poll]
    split <;> rfl
  · rfl

/-- Waiting for a record comes to the same over transports that map to each other. -/
theorem read_map {f : σ → τ} (hf : Transport.Commutes f) (id : LinkId) (polls : Nat)
    (r : RecordReader) (t : σ) :
    read id polls r (f t) =
      ((read id polls r t).1, (read id polls r t).2.1, f (read id polls r t).2.2) := by
  induction polls generalizing r t with
  | zero =>
    unfold read
    split <;> rfl
  | succ polls ih =>
    rw [read_succ, read_succ, attempt_map hf]
    rcases r.next? with e | (_ | ⟨record, r'⟩)
    · rfl
    · rcases attempt id t with ⟨e | bs, u⟩
      · rfl
      · exact ih (r.append bs) u
    · rfl

/-- What an attempt brings is put on record. -/
theorem received_attempt (id : LinkId) (t : Recorded τ) :
    (attempt id t).2.received = t.received ++ ((attempt id t).1.toOption.getD []) ∧
      (attempt id t).2.sent = t.sent := by
  unfold attempt
  simp only [Transport.recv, Recorded.recv]
  rcases Transport.recv t.inner id receiveLimit with ⟨e | (_ | ⟨b, bs⟩), u⟩
  · exact ⟨(List.append_nil _).symm, rfl⟩
  · dsimp only
    split
    · exact ⟨rfl, rfl⟩
    · exact ⟨rfl, rfl⟩
  · exact ⟨rfl, rfl⟩

end RecordReader
end TlsClient
