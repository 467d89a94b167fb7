import TlsClient.Proofs.Record.Nonces
import TlsClient.Proofs.Session.Outflow

namespace TlsClient.Session

open Network Simulation

variable {τ ρ : Type} [RandomSource ρ]

/-- From `s` to `u` some records were sent in the clear, and then the messages of `ms` one after the
other under the client's keys. The messages are few and short enough that neither the sequence number
nor the counter of a record wraps. -/
structure Numbered (s u : Session (Recorded τ) ρ) (suite : CipherSuite) (keys : KeyMaterial)
    (ms : List (Outgoing ρ)) : Prop where
  sent : ∃ clientHello exchange records, records <+: opening clientHello exchange ∧
    u.transport.sent = s.transport.sent ++ records.map Record.toBytes ++
      ((Protection.ofKeys suite keys .client).sealAll ms).map Record.toBytes
  few : ms.length < UInt64.size
  short : ∀ m ∈ ms, m.content.length ≤ Record.maxPlaintext

/-- Under GCM every record has a nonce of its own and every counter block is used once. -/
structure Fresh (cipher : Gcm) (iv : Octets 4) (ms : List (Outgoing ρ)) : Prop where
  /-- What the block cipher is called on for each record. -/
  fragments : ∀ i m, ms[i]? = some m →
    ((Protection.gcm cipher iv).sealAt i m).fragment =
      let header := RecordContext.header ⟨UInt64.ofNat i, m.contentType, .tls12⟩ m.content.length
      let encrypted := cipher.encryptOn (Protection.blocksAt iv i m) header m.content
      Bytes.ofNat 8 (UInt64.ofNat i).toNat ++ encrypted.1 ++ encrypted.2
  nonces : ((List.range ms.length).map (Protection.nonceAt iv)).Nodup
  blocks : (Protection.blocks iv ms).Nodup

/-- Few enough and short enough records never use a nonce or a counter block twice. -/
theorem fresh_of_short (cipher : Gcm) (iv : Octets 4) {ms : List (Outgoing ρ)}
    (hfew : ms.length < UInt64.size)
    (hshort : ∀ m ∈ ms, m.content.length ≤ Record.maxPlaintext) : Fresh cipher iv ms where
  fragments i m _ := Protection.fragment_sealAt cipher iv i m
  nonces := Protection.nodup_nonces iv (Nat.le_of_lt hfew)
  blocks := Protection.nodup_blocks iv (Nat.le_of_lt hfew) hshort

/-- What a handshake that stops has sent is numbered: there is at most one message under the keys. -/
theorem numbered_of_stopped {s t : Session (Recorded τ) ρ} {clientHello exchange : Bytes}
    (h : Stopped s t clientHello exchange) : ∃ suite keys ms, Numbered s t suite keys ms := by
  cases h with
  | clear records hbegins _ h =>
    -- Nothing was sealed, so any keys will do.
    obtain ⟨suite, -⟩ := List.exists_mem_of_ne_nil _ s.config.suites_ne_nil
    let writer : WriteKeys := ⟨[], .ofBytes [], []⟩
    refine ⟨suite, ⟨writer, writer⟩, [], ⟨clientHello, exchange, records, hbegins, ?_⟩, ?_, ?_⟩
    · rw [Sends] at h
      rw [h]
      exact (List.append_nil _).symm
    · exact Nat.zero_lt_succ _
    · intro m hm
      cases hm
  | sealed _ suite keys m _ _ hm h =>
    refine ⟨suite, keys, [m], ⟨clientHello, exchange, _, List.prefix_refl _, ?_⟩, ?_, ?_⟩
    · rw [Sends, List.map_append, ← List.append_assoc] at h
      exact h
    · exact Nat.succ_lt_succ (Nat.zero_lt_succ _)
    · exact List.forall_mem_singleton.2 hm

variable [Transport τ]

/-- A connection is numbered from its first record to its last, be the handshake and the calls after
it what they may. -/
theorem numbered (fuel : Nat) (now : Clock) (host : String) (peer : Endpoint)
    {s : Session (Recorded τ) ρ} (calls : List Call) (hs : Reachable s)
    (hinit : s.connection.state = .init) :
    ∃ suite keys ms,
      Numbered s (afterCalls calls (after (handshake fuel now host peer) s)) suite keys ms ∧
      ∀ t, handshake fuel now host peer s = .ok () t → Keyed t.connection suite keys ∧
        t.connection.writeProtection = some (Protection.ofKeys suite keys .client) := by
  have hends := handshake_ends fuel now host peer s hs.connection_eq_fresh
  unfold after
  cases h : handshake fuel now host peer s with
  | ok _ t =>
    obtain ⟨c, hc⟩ := hends.of_ok h
    obtain ⟨more, hmore⟩ := hc.outflow.afterCalls calls
    refine ⟨c.serverHello.suite, c.keys, [c.finished] ++ more, ⟨⟨c.clientHello, c.exchange, _,
      List.prefix_refl _, hmore.sent⟩, ?_, hmore.short⟩, ?_⟩
    · have hlimit : recordLimit < UInt64.size := Nat.sub_lt (by decide) Nat.one_pos
      exact Nat.lt_of_le_of_lt (hmore.length_eq ▸ Nat.min_le_left _ _) hlimit
    · intro t' h'
      cases h'
      exact ⟨hc.keyed, hc.writeProtection⟩
  | error e t =>
    rcases hends.of_error h with ⟨hnot, -⟩ | ⟨herror, clientRandom, encrypted, hstopped⟩
    · exact absurd hinit hnot
    · -- After its handshake has failed the session sends nothing more.
      have hlast : (afterCalls calls t).transport.sent = t.transport.sent := by
        apply sent_afterCalls calls
        rw [herror]
        exact Bool.false_ne_true
      obtain ⟨suite, keys, ms, hms⟩ := numbered_of_stopped (hstopped.of_same hlast)
      refine ⟨suite, keys, ms, hms, ?_⟩
      intro t' h'
      cases h'

/-- No nonce and no counter block is used twice on a connection under GCM. -/
theorem counter_blocks_fresh (fuel : Nat) (now : Clock) (host : String) (peer : Endpoint)
    {s : Session (Recorded τ) ρ} (calls : List Call) (hs : Reachable s)
    (hinit : s.connection.state = .init) :
    ∃ suite keys ms,
      Numbered s (afterCalls calls (after (handshake fuel now host peer) s)) suite keys ms ∧
      (∀ t, handshake fuel now host peer s = .ok () t → Keyed t.connection suite keys ∧
        t.connection.writeProtection = some (Protection.ofKeys suite keys .client)) ∧
      ∀ cipher iv, Protection.ofKeys suite keys .client = .gcm cipher iv → Fresh cipher iv ms := by
  obtain ⟨suite, keys, ms, hms, hkeyed⟩ := numbered fuel now host peer calls hs hinit
  refine ⟨suite, keys, ms, hms, hkeyed, ?_⟩
  intro cipher iv _
  exact fresh_of_short cipher iv hms.few hms.short

/-- The client of the recorded server uses no counter block twice, with the keys that it has agreed
on. -/
theorem sample_fresh : ∃ t suite keys ms cipher iv, Tape.handshake Tape.client = .ok () t ∧
    Numbered Tape.client (afterCalls Tape.calls (after Tape.handshake Tape.client)) suite keys ms ∧
    t.connection.writeProtection = some (.gcm cipher iv) ∧ Fresh cipher iv ms := by
  obtain ⟨t, ht, hsuite, -⟩ := Tape.sample_established
  obtain ⟨suite, keys, ms, hms, hwrites, hfresh⟩ := counter_blocks_fresh 100 ⟨0, 0⟩ ""
    .unspecified (s := Tape.client) Tape.calls (.start ..) rfl
  obtain ⟨⟨hagreed, -⟩, hwrite⟩ := hwrites t ht
  rw [hsuite] at hagreed
  cases hagreed
  exact ⟨t, _, keys, ms, _, _, ht, hms, hwrite, hfresh _ _ rfl⟩

end TlsClient.Session
