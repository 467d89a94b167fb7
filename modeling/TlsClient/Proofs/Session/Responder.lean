import Mathlib.Data.List.DropRight
import TlsClient.Proofs.Record.Opening
import TlsClient.Proofs.Record.Secrets
import TlsClient.Proofs.Rsa.Recovery
import TlsClient.Proofs.Session.Delivery
import TlsClient.Proofs.Session.Flight
import TlsClient.Proofs.Session.KeyAgreement
import TlsClient.Proofs.Wire.Written
import TlsClient.Simulation.Server

/-!
The other end of a handshake. A `Responder` answers a client's hello with its flight, and a Finished
message that is right with a change of the cipher and one of its own. Its secrets come from what it
has heard and from its private key.
-/

namespace TlsClient

namespace Simulation

theorem completeRecords_of_parse {bs rest : Bytes} {r : Record}
    (h : Record.parse bs = .ok (r, rest)) :
    completeRecords bs = (r :: (completeRecords rest).1, (completeRecords rest).2) := by
  obtain ⟨-, -, -, hbytes⟩ := Record.parse_eq_ok_iff.1 h
  have hless : rest.length < bs.length := by
    rw [hbytes, Record.toBytes_eq, List.length_append, List.length_append,
      RecordHeader.length_toBytes, RecordHeader.byteLength]
    omega
  rw [completeRecords]
  simp only [h, if_pos hless]

/-- Records that were written are taken apart again. -/
theorem completeRecords_wire {records : List Record} (h : ∀ r ∈ records, r.Acceptable) :
    (completeRecords (wire records)).1 = records := by
  induction records with
  | nil =>
    have hnone : Record.parse (wire []) = .error (.recoverable .eof) := rfl
    rw [completeRecords]
    simp only [hnone]
  | cons r records ih =>
    obtain ⟨hr, hrecords⟩ := List.forall_mem_cons.1 h
    have hparse : Record.parse (wire (r :: records)) = .ok (r, wire records) :=
      Record.parse_eq_ok_iff.2 ⟨hr.isKnown.canonical, hr.version, hr.length_le, wire_cons r records⟩
    rw [completeRecords_of_parse hparse, ih hrecords]

/-- More bytes only add to the records. -/
theorem completeRecords_prefix (a b : Bytes) :
    (completeRecords a).1 <+: (completeRecords (a ++ b)).1 := by
  induction a using completeRecords.induct with
  | case1 a e h =>
    have hnone : (completeRecords a).1 = [] := by
      rw [completeRecords]
      simp only [h]
    rw [hnone]
    exact List.nil_prefix
  | case2 a r rest h _ _ _ _ ih =>
    obtain ⟨htype, hversion, hlength, hbytes⟩ := Record.parse_eq_ok_iff.1 h
    have hmore : Record.parse (a ++ b) = .ok (r, rest ++ b) := by
      apply Record.parse_eq_ok_iff.2
      exact ⟨htype, hversion, hlength, by rw [hbytes, List.append_assoc]⟩
    rw [completeRecords_of_parse h, completeRecords_of_parse hmore]
    exact (List.prefix_cons_inj r).2 ih
  | case3 a r rest h hless =>
    have hnone : (completeRecords a).1 = [] := by
      rw [completeRecords]
      simp only [h, if_neg hless]
    rw [hnone]
    exact List.nil_prefix

end Simulation

namespace Session

open Network Handshake

/-- What a server says in answer to a client's hello, and the records that it spreads this over. -/
structure ServerFlight where
  hello : ServerHello
  chain : CertificateChain
  /-- The server's own certificate, and the key in it. -/
  leaf : Bytes
  key : PublicKey
  /-- How many requests to start over there are before each of the three messages. -/
  early : Nat
  middle : Nat
  late : Nat
  records : List Record
  version : hello.version = .tls12
  compression : hello.compression = .null
  hello_writable : hello.Writable
  hello_length : hello.message.length ≤ messageLimit
  chain_places : chain.certificates.length ≤ CertificateChain.places
  chain_length : chain.message.length ≤ messageLimit
  leaf_eq : chain.leaf? = some leaf
  key_eq : Der.certificateKey leaf = .ok key
  /-- There is room for a pre-master secret and its padding. -/
  key_length : 59 ≤ key.byteLength
  plain : ∀ r ∈ records, Plain r
  fragments : (records.map Record.fragment).flatten =
    (Answer.mk hello.message chain.message early middle late).messages.flatten

namespace ServerFlight

variable (f : ServerFlight)

def answer : Answer :=
  ⟨f.hello.message, f.chain.message, f.early, f.middle, f.late⟩

def needed : List Record :=
  f.records.rdropWhile (·.fragment.isEmpty)

def idle : List Record :=
  f.records.rtakeWhile (·.fragment.isEmpty)

/-- The records of a flight are those that are needed for its messages and the empty ones behind
them. -/
theorem needed_append_idle : f.needed ++ f.idle = f.records :=
  List.rdropWhile_append_rtakeWhile

theorem plain_needed : ∀ r ∈ f.needed, Plain r := by
  intro r hr
  apply f.plain
  rw [← f.needed_append_idle]
  exact List.mem_append_left _ hr

/-- The needed records hold all of the messages. -/
theorem flatten_needed : (f.needed.map Record.fragment).flatten = f.answer.messages.flatten := by
  have hidle : (f.idle.map Record.fragment).flatten = [] := by
    apply List.flatten_eq_nil_iff.2
    intro fragment hmem
    obtain ⟨r, hr, rfl⟩ := List.mem_map.1 hmem
    rw [idle] at hr
    have hempty := List.mem_rtakeWhile_imp hr
    exact List.isEmpty_iff.1 hempty
  have hall : (f.records.map Record.fragment).flatten = f.answer.messages.flatten := f.fragments
  rwa [← f.needed_append_idle, List.map_append, List.flatten_append, hidle, List.append_nil] at hall

/-- The last needed record holds a part of the last message. -/
theorem getLast?_needed : (f.needed.map Record.fragment).getLast? ≠ some [] := by
  intro hlast
  rw [List.getLast?_map, Option.map_eq_some_iff] at hlast
  obtain ⟨r, hr, hempty⟩ := hlast
  obtain ⟨hne, rfl⟩ := List.mem_getLast?_eq_getLast hr
  exact List.rdropWhile_last_not _ _ hne (List.isEmpty_iff.2 hempty)

/-- All records are needed if the last one is not empty. -/
theorem needed_eq_records (h : ∀ r ∈ f.records.getLast?, r.fragment ≠ []) :
    f.needed = f.records := by
  apply List.rdropWhile_eq_self_iff.2
  intro hne hempty
  exact h _ (List.getLast?_eq_some_getLast hne) (List.isEmpty_iff.1 hempty)

theorem idle_ne_nil {r : Record} (hr : r ∈ f.records.getLast?) (hempty : r.fragment = []) :
    f.idle ≠ [] := by
  intro hnone
  obtain ⟨hne, rfl⟩ := List.mem_getLast?_eq_getLast hr
  exact List.rtakeWhile_eq_nil_iff.1 hnone hne (List.isEmpty_iff.2 hempty)

theorem length_hello_lt : f.hello.toBytes.length < 2 ^ 24 := by
  have hmessage : f.hello.message.length = 4 + f.hello.toBytes.length := length_toBytes _
  have hle := f.hello_length
  have hlimit : messageLimit = 65536 := rfl
  omega

theorem chain_writable : f.chain.Writable := by
  have hmessage : f.chain.message.length = 4 + f.chain.toBytes.length := length_toBytes _
  have hle := f.chain_length
  have hlimit : messageLimit = 65536 := rfl
  exact ⟨f.chain_places, by omega⟩

theorem isFramed_hello : IsFramed f.hello.message :=
  isFramed_toBytes rfl f.length_hello_lt

theorem isFramed_chain : IsFramed f.chain.message :=
  isFramed_toBytes rfl f.chain_writable.length_lt

end ServerFlight

structure Spoken where
  hello : Record
  exchange : Record
  change : Record
  finished : Record

def Spoken.records (c : Spoken) : List Record :=
  [c.hello, c.exchange, c.change, c.finished]

theorem inClear_acceptable {m : Bytes} (hshort : m.length ≤ Record.maxPlaintext) :
    (inClear .handshake m).Acceptable :=
  ⟨fun _ => nofun, rfl, hshort.trans (by decide)⟩

theorem change_acceptable : (inClear .changeCipherSpec [1]).Acceptable :=
  ⟨fun _ => nofun, rfl, by decide⟩

def lastRecord {σ : Type} [RandomSource σ] (p : Protection) (m : Bytes) (random : σ) : Record :=
  ⟨.handshake, .tls12, (p.protect ⟨0, .handshake, .tls12⟩ m random).1⟩

theorem lastRecord_acceptable {σ : Type} [RandomSource σ] (p : Protection) {m : Bytes}
    (hshort : m.length ≤ Record.maxPlaintext) (random : σ) :
    (lastRecord p m random).Acceptable :=
  ⟨fun _ => nofun, rfl, Protection.length_protect_le p _ _ hshort⟩

/-- A server with the private key to the key in its certificate. -/
structure Responder (σ : Type) where
  flight : ServerFlight
  secret : PrivateKey
  inverts : secret.Inverts flight.key
  /-- The random numbers that it seals its Finished message with. -/
  random : σ

namespace Responder

variable {σ : Type} (p : Responder σ)

def secrets (c : Spoken) : Except CryptoFault Secrets :=
  let preMaster := PrivateKey.messageOf (p.secret.recover (c.exchange.fragment.drop 6))
  Secrets.derive p.flight.hello.suite preMaster ((c.hello.fragment.drop 6).take 32)
    p.flight.hello.random.toBytes

def transcript (c : Spoken) : Bytes :=
  c.hello.fragment ++ p.flight.answer.transcript ++ c.exchange.fragment

variable [RandomSource σ]

/-- The answer to a client's Finished message. There is none if the message is wrong. -/
def conclusion (c : Spoken) : Except CryptoFault (List Record) := do
  let secrets ← p.secrets c
  let expected ←
    Prf.expand secrets.master "client finished" (Sha256.hash (p.transcript c)) 12
  let verifyData ←
    Prf.expand secrets.master "server finished"
      (Sha256.hash (p.transcript c ++ finishedMessage expected)) 12
  let context : RecordContext := ⟨0, .handshake, .tls12⟩
  if c.change = inClear .changeCipherSpec [1] ∧
      secrets.client.unprotect context c.finished.fragment true = .ok (finishedMessage expected)
  then
    return [inClear .changeCipherSpec [1],
      lastRecord secrets.server (finishedMessage verifyData) p.random]
  else return []

/-- A Finished message that is right is answered. -/
theorem conclusion_eq_ok {c : Spoken} {secrets : Secrets} {expected verifyData : Bytes}
    (hsecrets : p.secrets c = .ok secrets)
    (hexpected : Prf.expand secrets.master "client finished" (Sha256.hash (p.transcript c)) 12 =
      .ok expected)
    (hdata : Prf.expand secrets.master "server finished"
      (Sha256.hash (p.transcript c ++ finishedMessage expected)) 12 = .ok verifyData)
    (hchange : c.change = inClear .changeCipherSpec [1])
    (hfinished : secrets.client.unprotect ⟨0, .handshake, .tls12⟩ c.finished.fragment true =
      .ok (finishedMessage expected)) :
    p.conclusion c = .ok [inClear .changeCipherSpec [1], lastRecord secrets.server
      (finishedMessage verifyData) p.random] := by
  apply (Secrets.bind_of_ok hsecrets _).trans
  apply (Secrets.bind_of_ok hexpected _).trans
  apply (Secrets.bind_of_ok hdata _).trans
  rw [if_pos ⟨hchange, hfinished⟩]
  rfl

def reply : List Record → List Record
  | [] => []
  | hello :: exchange :: change :: finished :: _ =>
    p.flight.records ++ (p.conclusion ⟨hello, exchange, change, finished⟩).toOption.getD []
  | _ :: _ => p.flight.records

def answer (heard : Bytes) : Bytes :=
  wire (p.reply (Simulation.completeRecords heard).1)

/-- What a responder answers depends on the records that it has heard, not on how they arrive. -/
theorem answer_wire {records : List Record} (h : ∀ r ∈ records, r.Acceptable) :
    p.answer (wire records) = wire (p.reply records) := by
  rw [answer, Simulation.completeRecords_wire h]

/-- The flight comes first, once a record was heard. -/
theorem flight_prefix (r : Record) (records : List Record) :
    p.flight.records <+: p.reply (r :: records) := by
  rcases records with _ | ⟨_, _ | ⟨_, _ | ⟨_, _⟩⟩⟩
  · exact List.prefix_refl _
  · exact List.prefix_refl _
  · exact List.prefix_refl _
  · exact List.prefix_append _ _

/-- A responder does not take back what it has answered. -/
theorem reply_prefix (records more : List Record) :
    p.reply records <+: p.reply (records ++ more) := by
  rcases records with _ | ⟨r, _ | ⟨_, _ | ⟨_, _ | ⟨_, _⟩⟩⟩⟩
  · exact List.nil_prefix
  · exact p.flight_prefix r more
  · exact p.flight_prefix r _
  · exact p.flight_prefix r _
  -- The answer to four records is complete.
  · exact List.prefix_refl _

/-- Whatever more it hears, a server does not take back what it has said. -/
theorem answer_prefix (heard bs : Bytes) : p.answer heard <+: p.answer (heard ++ bs) := by
  obtain ⟨more, hmore⟩ := Simulation.completeRecords_prefix heard bs
  obtain ⟨rest, hrest⟩ := p.reply_prefix (Simulation.completeRecords heard).1 more
  rw [hmore] at hrest
  rw [answer, answer, ← hrest, wire_append]
  exact List.prefix_append _ _

end Responder

end Session
end TlsClient
