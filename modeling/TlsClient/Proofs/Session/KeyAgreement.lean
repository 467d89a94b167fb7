import TlsClient.Proofs.Rsa.Encryption
import TlsClient.Proofs.Session.Hello
import TlsClient.Session.KeyAgreement

namespace TlsClient.Session

open Network

variable {τ ρ : Type}

def exchangeMessage (encrypted : Bytes) : Bytes :=
  Handshake.toBytes ⟨⟨.clientKeyExchange, 0⟩, .clientKeyExchange ⟨encrypted⟩⟩

def finishedMessage (verifyData : Bytes) : Bytes :=
  Handshake.toBytes ⟨⟨.finished, 0⟩, .finished ⟨verifyData⟩⟩

/-- Whether a byte string has the form of a pre-master secret: 48 bytes that begin with the version
that the hello has offered. -/
def IsPreMaster (bs : Bytes) : Prop :=
  bs.length = 48 ∧ bs.take 2 = [3, 3]

/-- The keys of a connection were derived from its master secret, for its suite and both randoms. -/
def Keyed (c : Connection) (suite : CipherSuite) (keys : KeyMaterial) : Prop :=
  c.suite = some suite ∧ ∃ block,
    Prf.keyBlock c.masterSecret c.clientRandom.toBytes c.serverRandom.toBytes
      suite.keyBlockLength = .ok block ∧
    KeyMaterial.ofKeyBlock suite block = .ok keys

def keying (s : Session τ ρ) (suite : CipherSuite) (keys : KeyMaterial) (master : Bytes) :
    Session τ ρ :=
  { s with connection := { s.connection with
    masterSecret := master
    writeProtection := some (Protection.ofKeys suite keys .client)
    pendingReadProtection := some (Protection.ofKeys suite keys .server) } }

def changing (s : Session (Recorded τ) ρ) (inner : τ) (state : State) : Session (Recorded τ) ρ :=
  { s with
    transport := { s.transport with
      inner
      sent := s.transport.sent ++ [(inClear .changeCipherSpec [1]).toBytes] }
    connection := { s.connection with clientSequence := 0, state } }

def finishing (s : Session (Recorded τ) ρ) (m : Bytes) (record : Record) (inner : τ) (random : ρ)
    (state : State) : Session (Recorded τ) ρ :=
  { s with
    transport := { s.transport with inner, sent := s.transport.sent ++ [record.toBytes] }
    random
    connection := { s.connection with
      state
      clientSequence := s.connection.clientSequence + 1
      transcript := s.connection.transcript.update m } }

/-- The keys are those of the connection as it is left, and nothing is sent for them. -/
theorem deriveKeys_ends (preMaster : Bytes) (s : Session (Recorded τ) ρ) :
    Ends (deriveKeys preMaster) s
      (fun _ t => ∃ suite keys master,
        Prf.masterSecret preMaster s.connection.clientRandom.toBytes
          s.connection.serverRandom.toBytes = .ok master ∧
        Keyed t.connection suite keys ∧ t = s.keying suite keys master)
      (fun _ t => t.transport.sent = s.transport.sent) := by
  apply Ends.bind_current
  cases hsuite : s.connection.suite with
  | none => exact ends_fail rfl
  | some suite =>
    refine Ends.bind_check (fun master hmaster => ?_) fun _ _ => rfl
    refine Ends.bind_update (Ends.bind_check (fun block hblock => ?_) fun _ _ => rfl)
    refine Ends.bind_check (fun keys hkeys => ?_) fun _ _ => rfl
    refine ends_update ⟨suite, keys, master, mapError_eq_ok_iff.1 hmaster, ?_, rfl⟩
    exact ⟨hsuite, block, mapError_eq_ok_iff.1 hblock, mapError_eq_ok_iff.1 hkeys⟩

/-- Verify data comes from the secret and the transcript as they stand. -/
theorem verifyDataFor_ends (label : String) (s : Session τ ρ) :
    Ends (verifyDataFor label) s
      (fun verifyData t => t = s ∧
        Prf.verifyData s.connection.masterSecret label s.connection.transcript.finish =
          .ok verifyData)
      (fun _ t => t = s) :=
  Ends.bind_current (ends_check (fun _ h => ⟨rfl, mapError_eq_ok_iff.1 h⟩) fun _ _ => rfl)

variable [Transport τ] [RandomSource ρ]

/-- A pre-master secret goes out under the server's key, and the same one is the result. -/
theorem sendKeyExchange_ends (fuel : Nat) (s : Session (Recorded τ) ρ)
    (hclear : s.connection.writeProtection = none) :
    Ends (sendKeyExchange fuel) s
      (fun preMaster t => ∃ inner random key encrypted state,
        s.connection.serverKey = some key ∧ IsPreMaster preMaster ∧
        key.Encrypts preMaster encrypted ∧
        (exchangeMessage encrypted).length ≤ Record.maxPlaintext ∧
        s.connection.state.next? .sendClientKeyExchange = some state ∧
        t = { s with
          transport := { s.transport with
            inner
            sent := s.transport.sent ++
              [(inClear .handshake (exchangeMessage encrypted)).toBytes] }
          random
          connection := { s.connection with
            state
            transcript := s.connection.transcript.update (exchangeMessage encrypted) } })
      (fun _ t => ∃ encrypted, MaySend s t .handshake (exchangeMessage encrypted)) := by
  apply Ends.bind_current
  cases hkey : s.connection.serverKey with
  | none => exact ends_fail ⟨[], .inl (Sends.refl s)⟩
  | some key =>
    refine Ends.bind_draw (Ends.bind_draw ?_)
    dsimp only
    have hlength := RandomSource.length_fill s.random preMasterRandomLength
    generalize (RandomSource.fill s.random preMasterRandomLength).1 = random at hlength
    generalize (RandomSource.fill s.random preMasterRandomLength).2 = r
    have hform : IsPreMaster (ProtocolVersion.tls12.toBytes ++ random) :=
      ⟨by rw [List.length_append, hlength]; rfl, rfl⟩
    cases hencrypt : key.encrypt fuel (ProtocolVersion.tls12.toBytes ++ random) r with
    | mk result r' =>
    cases result with
    | error stop => exact ends_throw ⟨[], .inl (Sends.refl s)⟩
    | ok encrypted =>
      have hencrypts := PublicKey.encrypts_of_encrypt hencrypt
      refine Ends.bind_mono (sendMessage_ends .clientKeyExchange _ _ rfl) ?_ ?_
      · intro e t h
        refine ⟨encrypted, ?_⟩
        rcases h with h | ⟨-, _, rfl⟩
        · obtain ⟨hshort, inner, rfl⟩ := h.eq_clear hclear
          exact .inr ⟨hshort, rfl⟩
        · exact .inl (Sends.refl s)
      · intro _ t h
        obtain ⟨hshort, inner, rfl⟩ := h.eq_clear hclear
        refine Ends.bind_advance (fun state hstate => ?_) fun e => ?_
        · exact ends_pure ⟨inner, _, key, encrypted, state, rfl, hform, hencrypts, hshort, hstate,
            rfl⟩
        · exact ⟨encrypted, .inr ⟨hshort, rfl⟩⟩

/-- Announcing the keys does not put them to use yet. -/
theorem sendChangeCipherSpec_ends (s : Session (Recorded τ) ρ) :
    Ends sendChangeCipherSpec s
      (fun _ t => ∃ inner state,
        s.connection.state.next? .sendChangeCipherSpec = some state ∧ t = s.changing inner state)
      (fun _ t => MaySend s t .changeCipherSpec [1]) := by
  -- The write keys are in place, but the change itself is sent without them.
  refine Ends.bind_mono (transmit_ends none .changeCipherSpec changeCipherSpec s) ?_ ?_
  · intro e t h
    rcases h with h | ⟨-, _, rfl⟩
    · obtain ⟨hlength, inner, rfl⟩ := h.eq_clear rfl
      exact .inr ⟨hlength, rfl⟩
    · exact .inl (Sends.refl s)
  · intro _ t h
    obtain ⟨hlength, inner, rfl⟩ := h.eq_clear rfl
    refine Ends.bind_update (ends_advance (fun state hstate => ?_) fun e => ?_)
    · exact ⟨inner, state, hstate, rfl⟩
    · exact .inr ⟨hlength, rfl⟩

/-- The client's Finished message is sealed under the next sequence number. -/
theorem sendFinished_ends (s : Session (Recorded τ) ρ) (p : Protection)
    (hp : s.connection.writeProtection = some p) :
    Ends sendFinished s
      (fun _ t => ∃ inner random verifyData state,
        Prf.verifyData s.connection.masterSecret "client finished" s.connection.transcript.finish =
          .ok verifyData ∧
        (finishedMessage verifyData).length ≤ Record.maxPlaintext ∧
        s.connection.clientSequence.toNat + 1 < UInt64.size ∧
        s.connection.state.next? .sendFinished = some state ∧
        t = s.finishing (finishedMessage verifyData) ⟨.handshake, .tls12,
          (p.protect ⟨s.connection.clientSequence, .handshake, .tls12⟩ (finishedMessage verifyData)
            s.random).1⟩ inner random state)
      (fun _ t => t.transport.sent = s.transport.sent ∨ ∃ verifyData,
        Prf.verifyData s.connection.masterSecret "client finished" s.connection.transcript.finish =
          .ok verifyData ∧
        (finishedMessage verifyData).length ≤ Record.maxPlaintext ∧
        s.connection.clientSequence.toNat + 1 < UInt64.size ∧
        Sends s t [⟨.handshake, .tls12,
          (p.protect ⟨s.connection.clientSequence, .handshake, .tls12⟩ (finishedMessage verifyData)
            s.random).1⟩]) := by
  refine Ends.bind_mono (verifyDataFor_ends "client finished" s) ?_ ?_
  · intro e t h
    exact .inl (h ▸ rfl)
  · intro verifyData t h
    obtain ⟨rfl, hdata⟩ := h
    refine Ends.bind_mono (sendMessage_ends .finished _ t rfl) ?_ ?_
    · intro e u h
      rcases h with h | ⟨-, _, rfl⟩
      · obtain ⟨hlength, hroom, inner, random, rfl⟩ := h.eq_sealed hp
        exact .inr ⟨verifyData, hdata, hlength, hroom, rfl⟩
      · exact .inl rfl
    · intro _ u h
      obtain ⟨hlength, hroom, inner, random, rfl⟩ := h.eq_sealed hp
      refine ends_advance (fun state hstate => ?_) fun e => ?_
      · exact ⟨inner, random, verifyData, state, hdata, hlength, hroom, hstate, rfl⟩
      · exact .inr ⟨verifyData, hdata, hlength, hroom, rfl⟩

end TlsClient.Session
