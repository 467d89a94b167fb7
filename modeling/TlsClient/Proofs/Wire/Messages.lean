import TlsClient.Error
import TlsClient.Proofs.Wire.Framing

namespace TlsClient

open Wire.Parser

namespace MessageType

def Canonical (t : MessageType) : Prop := ofCode t.code = t

theorem canonical_ofCode (v : UInt8) : (ofCode v).Canonical := by
  rw [Canonical, code_ofCode]

end MessageType

namespace HandshakeHeader

def toBytes (h : HandshakeHeader) : Bytes :=
  h.kind.code :: Bytes.ofNat 3 h.length

@[simp] theorem length_toBytes (h : HandshakeHeader) : h.toBytes.length = byteLength := by
  simp [toBytes, byteLength]

/-- The header of a message is read exactly as it is written. -/
theorem parse_eq_ok_iff {input rest : Bytes} {h : HandshakeHeader} :
    parse input = .ok (h, rest) ↔
      h.kind.Canonical ∧ h.length < 2 ^ 24 ∧ input = h.toBytes ++ rest := by
  simp only [parse, MessageType.parse, bind_eq_ok_iff, map_eq_ok_iff, pure_eq_ok_iff,
    byte_eq_ok_iff, number_eq_ok_iff_append]
  constructor
  · intro hq
    obtain ⟨_, _, ⟨b, rfl, rfl⟩, n, _, ⟨hn, rfl⟩, rfl, rfl⟩ := hq
    exact ⟨MessageType.canonical_ofCode b, hn, by simp [toBytes]⟩
  · intro hq
    obtain ⟨ht, hn, rfl⟩ := hq
    exact ⟨h.kind, Bytes.ofNat 3 h.length ++ rest, ⟨h.kind.code, rfl, ht⟩, h.length, rest,
      ⟨hn, rfl⟩, rfl, rfl⟩

end HandshakeHeader

namespace Handshake

/-- Whether a byte string is one message: a header and as many bytes as it announces. -/
def IsFramed (m : Bytes) : Prop :=
  completeLength m = some m.length

theorem completeLength_eq_some_iff {bs : Bytes} {n : Nat} :
    completeLength bs = some n ↔
      ∃ header rest, HandshakeHeader.parse bs = .ok (header, rest) ∧
        n = HandshakeHeader.byteLength + header.length ∧ n ≤ bs.length := by
  unfold completeLength
  cases HandshakeHeader.parse bs with
  | error e => simp
  | ok parsed =>
    obtain ⟨header, rest⟩ := parsed
    simp only [ge_iff_le, Option.ite_none_right_eq_some, Option.some.injEq, Except.ok.injEq,
      Prod.mk.injEq]
    constructor
    · intro h
      obtain ⟨hle, rfl⟩ := h
      exact ⟨header, rest, ⟨rfl, rfl⟩, rfl, hle⟩
    · intro h
      obtain ⟨_, _, ⟨rfl, rfl⟩, rfl, hle⟩ := h
      exact ⟨hle, rfl⟩

/-- A complete message at the front of a string is framed. -/
theorem isFramed_take {bs : Bytes} {n : Nat} (h : completeLength bs = some n) :
    IsFramed (bs.take n) := by
  -- Cutting after what the header announces leaves the header as it is.
  obtain ⟨header, rest, hparse, rfl, hle⟩ := completeLength_eq_some_iff.1 h
  obtain ⟨hkind, hlength, rfl⟩ := HandshakeHeader.parse_eq_ok_iff.1 hparse
  have htake : (header.toBytes ++ rest).take (HandshakeHeader.byteLength + header.length) =
      header.toBytes ++ rest.take header.length := by
    rw [← header.length_toBytes, List.take_length_add_append]
  rw [htake]
  refine completeLength_eq_some_iff.2 ⟨header, rest.take header.length,
    HandshakeHeader.parse_eq_ok_iff.2 ⟨hkind, hlength, rfl⟩, ?_, Nat.le_refl _⟩
  rw [List.length_append, header.length_toBytes] at hle ⊢
  rw [List.length_take]
  omega

variable {m : Bytes} {suite : Option CipherSuite} {message : Handshake}

/-- A framed string that reads to a message is its header and a body that is read to the end. -/
theorem parse_framed (hm : IsFramed m) (h : (Handshake.parse suite).parse m = .ok message) :
    ∃ body, m = message.header.toBytes ++ body ∧ body.length = message.header.length ∧
      HandshakeBody.parse message.header.kind suite body = .ok (message.body, []) ∧
      Handshake.parse suite m = .ok (message, []) := by
  cases hp : Handshake.parse suite m with
  | error e => simp [Wire.Parser.parse, hp] at h
  | ok parsed =>
    obtain ⟨message', left⟩ := parsed
    have hsame : message' = message := by simpa [Wire.Parser.parse, hp] using h
    subst hsame
    have hread := hp
    simp only [Handshake.parse, bind_eq_ok_iff, take_eq_ok_iff, pure_eq_ok_iff] at hread
    obtain ⟨header, _, hheader, body, left', ⟨hbody, rfl⟩, b, _, hwithin, rfl, rfl⟩ := hread
    obtain ⟨-, -, rfl⟩ := HandshakeHeader.parse_eq_ok_iff.1 hheader
    -- The header says how long the string is, so nothing is left after the body.
    obtain ⟨header', _, hheader', hlength, -⟩ := completeLength_eq_some_iff.1 hm
    rw [hheader] at hheader'
    cases hheader'
    simp only [within] at hwithin
    split at hwithin
    · rename_i b' hb
      obtain ⟨rfl, rfl⟩ := Prod.mk.inj (Except.ok.inj hwithin)
      simp only [List.length_append, HandshakeHeader.length_toBytes] at hlength
      have hleft : left'.length = 0 := by omega
      rw [List.length_eq_zero_iff] at hleft
      subst hleft
      exact ⟨body, by simp, hbody, hb, rfl⟩
    · cases hwithin
    · cases hwithin

/-- What a body reads to tells the kind that the header announced and how the body was read. -/
theorem kind_of_parse {kind : MessageType} {input rest : Bytes} {body : HandshakeBody}
    (h : HandshakeBody.parse kind suite input = .ok (body, rest)) :
    match body with
    | .helloRequest => kind = .helloRequest ∧ input = rest
    | .serverHello hello =>
      kind = .serverHello ∧ ServerHello.parse input = .ok (hello, rest)
    | .certificate chain =>
      kind = .certificate ∧ CertificateChain.parse input = .ok (chain, rest)
    | .serverHelloDone => kind = .serverHelloDone ∧ input = rest
    | .finished finished =>
      kind = .finished ∧ finished.verifyData.length = 12 ∧ input = finished.verifyData ++ rest
    | _ => True := by
  -- The body is read by the kind, so each kind gives one shape of body.
  cases kind <;> simp only [HandshakeBody.parse, map_eq_ok_iff, pure_eq_ok_iff] at h
  case helloRequest | serverHelloDone =>
    obtain ⟨rfl, rfl⟩ := h
    exact ⟨rfl, rfl⟩
  case serverHello | certificate =>
    obtain ⟨_, hparse, rfl⟩ := h
    exact ⟨rfl, hparse⟩
  case finished =>
    cases suite with
    | none => cases h
    | some suite =>
      simp only [Finished.parse, map_eq_ok_iff, take_eq_ok_iff] at h
      obtain ⟨_, ⟨_, ⟨hlength, rfl⟩, rfl⟩, rfl⟩ := h
      exact ⟨rfl, hlength, rfl⟩
  all_goals
    obtain ⟨_, _, rfl⟩ := h
    trivial

/-- A framed request to start over has no body. -/
theorem eq_helloRequest (hm : IsFramed m) (h : (Handshake.parse suite).parse m = .ok message)
    (hkind : message.header.kind = .helloRequest) : m = [0, 0, 0, 0] := by
  obtain ⟨body, rfl, hlength, hparse, -⟩ := parse_framed hm h
  rw [hkind] at hparse
  -- A request has no body, so the string is its header alone.
  simp only [HandshakeBody.parse, pure_eq_ok_iff] at hparse
  obtain ⟨-, rfl⟩ := hparse
  rw [List.append_nil, HandshakeHeader.toBytes, hkind, ← hlength]
  rfl

theorem eq_serverHelloDone (hm : IsFramed m) (h : (Handshake.parse suite).parse m = .ok message)
    (hbody : message.body = .serverHelloDone) : m = [14, 0, 0, 0] := by
  obtain ⟨body, rfl, hlength, hparse, -⟩ := parse_framed hm h
  rw [hbody] at hparse
  obtain ⟨hkind, rfl⟩ := kind_of_parse hparse
  rw [List.append_nil, HandshakeHeader.toBytes, hkind, ← hlength]
  rfl

/-- A framed Finished message is its header and twelve bytes. -/
theorem eq_finished {finished : Finished} (hm : IsFramed m)
    (h : (Handshake.parse suite).parse m = .ok message) (hbody : message.body = .finished finished) :
    finished.verifyData.length = 12 ∧ m = [20, 0, 0, 12] ++ finished.verifyData := by
  obtain ⟨body, rfl, hlength, hparse, -⟩ := parse_framed hm h
  rw [hbody] at hparse
  obtain ⟨hkind, htwelve, rfl⟩ := kind_of_parse hparse
  rw [List.append_nil] at hlength ⊢
  -- The header announces the twelve bytes that the body was read from.
  refine ⟨htwelve, ?_⟩
  rw [HandshakeHeader.toBytes, hkind, ← hlength, htwelve]
  rfl

end Handshake
end TlsClient
