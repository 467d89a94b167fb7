import TlsClient.Proofs.Session.Transmission
import TlsClient.Proofs.Wire.Bodies
import TlsClient.Session.Handshake

namespace TlsClient.Session

open Network

variable {τ ρ : Type}

/-- From `s` to `s'` these records were offered to the transport and no others. -/
def Sends (s s' : Session (Recorded τ) ρ) (records : List Record) : Prop :=
  s'.transport.sent = s.transport.sent ++ records.map Record.toBytes

/-- What was offered first stands first. -/
theorem Sends.trans {s s' s'' : Session (Recorded τ) ρ} {a b : List Record} (h : Sends s s' a)
    (h' : Sends s' s'' b) : Sends s s'' (a ++ b) := by
  rw [Sends] at h h' ⊢
  rw [h', h, List.map_append, List.append_assoc]

theorem Sends.refl (s : Session (Recorded τ) ρ) : Sends s s [] := by
  simp [Sends]

/-- Nothing is offered beyond the records that are said to be. -/
theorem Sends.not_more {s t : Session (Recorded τ) ρ} {records : List Record} {n : Nat}
    (h : Sends s t records) (hn : records.length ≤ n) :
    ¬ s.transport.sent.length + n < t.transport.sent.length := by
  rw [h, List.length_append, List.length_map]
  omega

def inClear (contentType : ContentType) (payload : Bytes) : Record :=
  ⟨contentType, .tls12, payload⟩

/-- From `s` to `s'` a payload was offered in the clear or nothing was sent. -/
def MaySend (s s' : Session (Recorded τ) ρ) (contentType : ContentType) (payload : Bytes) : Prop :=
  Sends s s' [] ∨ (payload.length ≤ Record.maxPlaintext ∧ Sends s s' [inClear contentType payload])

def noting (s : Session τ ρ) (m : Bytes) : Session τ ρ :=
  { s with connection := { s.connection with transcript := s.connection.transcript.update m } }

variable [Transport τ] [RandomSource ρ]

/-- A message enters the transcript whether or not it reaches the transport. -/
theorem sendMessage_ends (kind : MessageType) (body : HandshakeBody)
    (s : Session (Recorded τ) ρ) {m : Bytes} (hm : m = Handshake.toBytes ⟨⟨kind, 0⟩, body⟩) :
    Ends (sendMessage kind body) s
      (fun _ s' => Offered (s.noting m) .handshake m s.connection.writeProtection s')
      (fun _ s' => Offered (s.noting m) .handshake m s.connection.writeProtection s' ∨
        Withheld (s.noting m) m s.connection.writeProtection s') := by
  subst hm
  exact Ends.bind_update (transmitProtected_ends .handshake _ (s.noting _))

def helloMessage (config : Config) (random : HelloRandom) (host : String) : Bytes :=
  Handshake.toBytes ⟨⟨.clientHello, 0⟩, .clientHello (helloFor config random host)⟩

theorem drop_take_of_append {n k : Nat} {before bs rest : Bytes} (hn : before.length = n)
    (hk : bs.length = k) : ((before ++ (bs ++ rest)).drop n).take k = bs := by
  rw [List.drop_left' hn, List.take_left' hk]

/-- The random value stands at a fixed place of the hello, whatever follows it. -/
theorem helloMessage_random (config : Config) (random : HelloRandom) (host : String) :
    ((helloMessage config random host).drop 6).take 32 = random.toBytes := by
  obtain ⟨rest, hhello⟩ : ∃ rest, (helloFor config random host).toBytes =
      ProtocolVersion.tls12.toBytes ++ (random.toBytes ++ rest) := by
    rw [ClientHello.toBytes]
    simp only [List.append_assoc]
    exact ⟨_, rfl⟩
  -- Four bytes of header and two of version stand before the random value.
  have hbytes : helloMessage config random host =
      [1] ++ Bytes.ofNat 3 (helloFor config random host).toBytes.length ++
        ProtocolVersion.tls12.toBytes ++ (random.toBytes ++ rest) := by
    rw [List.append_assoc, ← hhello]
    rfl
  rw [hbytes]
  exact drop_take_of_append rfl random.length_toBytes

/-- The hello that was sent is the one with the random value that the session goes on with. -/
theorem sendHello_ends (now : Clock) (host : String) (s : Session (Recorded τ) ρ)
    (hclear : s.connection.writeProtection = none) :
    Ends (sendHello now host) s
      (fun _ s' => ∃ inner random clientRandom state,
        s.connection.state.next? .sendClientHello = some state ∧
        (helloMessage s.config clientRandom host).length ≤ Record.maxPlaintext ∧
        s' = { s with
          transport := { s.transport with
            inner
            sent := s.transport.sent ++
              [(inClear .handshake (helloMessage s.config clientRandom host)).toBytes] }
          random
          connection := { s.connection with
            clientRandom
            state
            transcript := s.connection.transcript.update
              (helloMessage s.config clientRandom host) } })
      (fun _ s' => ∃ clientRandom,
        MaySend s s' .handshake (helloMessage s.config clientRandom host)) := by
  unfold sendHello
  split
  · exact ends_fail ⟨default, .inl (Sends.refl s)⟩
  · refine Ends.bind_draw (Ends.bind_update (Ends.bind_get ?_))
    generalize hr : (HelloRandom.draw now s.random).1 = clientRandom
    generalize hr' : (HelloRandom.draw now s.random).2 = random
    refine Ends.bind_mono (sendMessage_ends .clientHello _ _ rfl) ?_ ?_
    · intro e s' h
      refine ⟨clientRandom, ?_⟩
      rcases h with h | ⟨-, _, rfl⟩
      · obtain ⟨hlength, inner, rfl⟩ := h.eq_clear hclear
        exact .inr ⟨hlength, rfl⟩
      · exact .inl (Sends.refl s)
    · intro _ s' h
      obtain ⟨hlength, inner, rfl⟩ := h.eq_clear hclear
      refine ends_advance (fun state hstate => ?_) fun e => ?_
      · exact ⟨inner, random, clientRandom, state, hstate, hlength, rfl⟩
      · exact ⟨clientRandom, .inr ⟨hlength, rfl⟩⟩

end TlsClient.Session
