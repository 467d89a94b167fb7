import TlsClient.Network.Recorded
import TlsClient.Random.Scripted
import TlsClient.Session.Calls

/-!
A server that was recorded once and is played back: it accepts whatever is sent to it and sends what
it has sent before. With the same random numbers and the same clock a client has the same
conversation with it again.
-/

namespace TlsClient.Simulation

open Network

/-- A transport that plays back what arrived on another one, chunk by chunk. -/
structure Tape where
  chunks : List Bytes
deriving DecidableEq

namespace Tape

def recv (t : Tape) (limit : Nat) : Except TransportError Bytes × Tape :=
  match t.chunks with
  | [] => (.ok [], t)
  | chunk :: chunks =>
    -- A chunk is handed over in pieces if there is no room for it.
    let left := chunk.drop limit
    (.ok (chunk.take limit), ⟨if left = [] then chunks else left :: chunks⟩)

theorem length_recv_le (t : Tape) (limit : Nat) (bs : Bytes) (h : (t.recv limit).1 = .ok bs) :
    bs.length ≤ limit := by
  unfold recv at h
  split at h
  · cases h
    exact Nat.zero_le _
  · cases h
    rw [List.length_take]
    exact Nat.min_le_left _ _

instance : Transport Tape where
  connect t _ := (.ok ⟨7⟩, t)
  send t _ bs := (.ok bs.length, t)
  recv t _ limit := t.recv limit
  length_recv_le t _ limit bs h := t.length_recv_le limit bs h
  isClosed _ _ := false
  close t _ := (.ok (), t)
  poll t := t

/-- A server that selects AES-128-GCM, gives a certificate with an RSA key of sixty bytes, finishes
the handshake and sends two bytes of data. -/
def sample : Tape where
  chunks := [
    [22, 3, 3, 0, 145],
    [2, 0, 0, 38, 3, 3, 0, 1, 2, 3, 4, 5, 6, 7, 8, 9, 10, 11, 12, 13, 14, 15, 16, 17, 18, 19, 20, 21,
      22, 23, 24, 25, 26, 27, 28, 29, 30, 31, 0, 0, 156, 0, 11, 0, 0, 95, 0, 0, 92, 0, 0, 89, 48, 87,
      48, 85, 48, 83, 48, 11, 6, 9, 42, 134, 72, 134, 247, 13, 1, 1, 1, 3, 68, 0, 48, 65, 2, 60, 0,
      202, 63, 66, 225, 222, 230, 198, 188, 120, 212, 148, 170, 144, 158, 136, 158, 36, 210, 48, 243,
      176, 62, 1, 92, 167, 96, 30, 177, 123, 126, 151, 105, 185, 88, 95, 249, 147, 24, 220, 75, 182,
      236, 14, 114, 248, 147, 233, 7, 180, 85, 200, 132, 17, 92, 105, 237, 185, 194, 233, 2, 1, 1, 14,
      0, 0, 0],
    [20, 3, 3, 0, 1, 1],
    [22, 3, 3, 0, 40, 0, 0, 0, 0, 0, 0, 0, 0, 60, 138, 182, 130, 224, 42, 162, 4, 4, 55, 63, 33, 103,
      19, 228, 249, 223, 144, 232, 2, 59, 65, 66, 201, 47, 125, 14, 232, 241, 144, 40, 229],
    [23, 3, 3, 0, 26, 0, 0, 0, 0, 0, 0, 0, 1, 174, 47, 89, 213, 101, 140, 232, 246, 229, 33, 6, 170,
      6, 142, 94, 1, 166, 133]]

def client : Session (Recorded Tape) ScriptedSource :=
  .start (.start sample) { Config.standard with pollLimit := 5, pollLimit_pos := by decide }
    (.ofBytes [])

def handshake : Session.Action (Recorded Tape) ScriptedSource Unit :=
  Session.handshake 100 ⟨0, 0⟩ "" .unspecified

def calls : List Call := [.recv 5 1, .send [104, 105], .recv 5 9]

def certificate : Bytes :=
  ((sample.chunks.getD 1 []).drop 52).take 89

def key : PublicKey where
  modulus := {
    words := [3988374249, 2215730281, 129258952, 1928893417, 1270279182, 4187166940, 1773754463,
      2977660567, 1554472990, 4088413697, 2653213232, 2861604488, 3162035348, 3789481670, 13254466]
    length_le := by decide
    top_ne_zero := by decide }
  exponent := ⟨[1], by decide, by decide⟩
  exponent_ne_zero := rfl
  exponent_less := by decide

end Tape
end TlsClient.Simulation
