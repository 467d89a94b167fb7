import TlsClient.Proofs.Wire.ClientHello

/-!
Handshake messages there and back. A message whose lists fit into their places and whose lengths can
be written is read back from what it is written as, whatever stands before and behind it; and what a
message was read from is what it is written as, but for a client's hello with an empty block of
extensions. So every length in a message that is accepted is that of what it encloses, and no byte of
the message is passed over.
-/

namespace TlsClient

open Wire.Parser

theorem Wire.Parser.rest_eq_ok_iff {input left bs : Bytes} :
    rest input = .ok (bs, left) ↔ input = bs ∧ left = [] := by
  have hrest : rest input = .ok (input, []) := rfl
  rw [hrest]
  constructor
  · intro h
    obtain ⟨rfl, rfl⟩ := Prod.mk.inj (Except.ok.inj h)
    exact ⟨rfl, rfl⟩
  · rintro ⟨rfl, rfl⟩
    rfl

theorem KeyExchange.parse_eq_ok_iff {input rest : Bytes} {k : KeyExchange} :
    KeyExchange.parse input = .ok (k, rest) ↔
      k.encrypted.length < 65536 ∧ input = k.toBytes ++ rest := by
  simp only [KeyExchange.parse, map_eq_ok_iff, block_eq_ok_iff]
  constructor
  · rintro ⟨encrypted, ⟨hlength, rfl⟩, rfl⟩
    exact ⟨hlength, rfl⟩
  · rintro ⟨hlength, rfl⟩
    exact ⟨k.encrypted, ⟨hlength, rfl⟩, rfl⟩

theorem Finished.parse_eq_ok_iff {suite : CipherSuite} {input rest : Bytes} {f : Finished} :
    Finished.parse suite input = .ok (f, rest) ↔
      f.verifyData.length = 12 ∧ input = f.verifyData ++ rest := by
  simp only [Finished.parse, map_eq_ok_iff, take_eq_ok_iff]
  constructor
  · rintro ⟨verifyData, ⟨hlength, rfl⟩, rfl⟩
    exact ⟨hlength, rfl⟩
  · rintro ⟨hlength, rfl⟩
    exact ⟨f.verifyData, ⟨hlength, rfl⟩, rfl⟩

def MessageType.IsOpaque : MessageType → Prop
  | .newSessionTicket | .certificateVerify | .unknown _ => True
  | _ => False

namespace HandshakeBody

variable {suite suite' : Option CipherSuite} {kind kind' : MessageType} {body : HandshakeBody}
  {bs : Bytes}

/-- A body that a message of a type can carry: it is of the shape that the type asks for, and its
lists and lengths are within their bounds. Verify data is only read with a suite. -/
inductive Fits (suite : Option CipherSuite) : MessageType → HandshakeBody → Prop
  | helloRequest : Fits suite .helloRequest .helloRequest
  | clientHello {hello : ClientHello} (h : hello.Writable) :
    Fits suite .clientHello (.clientHello hello)
  | serverHello {hello : ServerHello} (h : hello.Writable) :
    Fits suite .serverHello (.serverHello hello)
  | certificate {chain : CertificateChain} (h : chain.Fits) :
    Fits suite .certificate (.certificate chain)
  | serverKeyExchange (data : Bytes) : Fits suite .serverKeyExchange (.serverKeyExchange data)
  | certificateRequest (data : Bytes) : Fits suite .certificateRequest (.certificateRequest data)
  | serverHelloDone : Fits suite .serverHelloDone .serverHelloDone
  | clientKeyExchange {exchange : KeyExchange} (h : exchange.encrypted.length < 65536) :
    Fits suite .clientKeyExchange (.clientKeyExchange exchange)
  | finished {message : Finished} (hsuite : suite.isSome) (h : message.verifyData.length = 12) :
    Fits suite .finished (.finished message)
  | unknown {kind : MessageType} (hkind : kind.IsOpaque) (data : Bytes) :
    Fits suite kind (.unknown kind.code data)

/-- The type of a message can be told by its body. -/
theorem Fits.kind_eq (h : body.Fits suite kind) (h' : body.Fits suite' kind')
    (hkind : kind.Canonical) (hkind' : kind'.Canonical) : kind = kind' := by
  cases h with
  | unknown hopaque data =>
    generalize hcode : kind.code = code at h'
    cases h' with
    | unknown hopaque' data =>
      calc kind = .ofCode kind.code := hkind.symm
        _ = .ofCode kind'.code := by rw [hcode]
        _ = kind' := hkind'
  | _ =>
    cases h'
    rfl

/-- The byte strings that a body is read from: the one that it is written as and, for the hello of a
client without extensions, that one with an empty block of extensions behind it. -/
inductive ReadFrom (body : HandshakeBody) : Bytes → Prop
  | written : ReadFrom body body.toBytes
  | emptyBlock {hello : ClientHello} (hbody : body = .clientHello hello)
    (hnone : hello.extensions = []) : ReadFrom body (hello.toBytes ++ [0, 0])

/-- Only a client's hello is read from more than its written form. -/
theorem ReadFrom.eq_toBytes (h : body.ReadFrom bs) (hbody : ∀ hello, body ≠ .clientHello hello) :
    bs = body.toBytes := by
  cases h with
  | written => rfl
  | emptyBlock hhello _ => exact absurd hhello (hbody _)

theorem ReadFrom.length_toBytes_le (h : body.ReadFrom bs) : body.toBytes.length ≤ bs.length := by
  cases h with
  | written => exact Nat.le_refl _
  | emptyBlock hhello _ =>
    subst hhello
    rw [List.length_append]
    exact Nat.le_add_right _ _

/-- A byte string reads to a body if and only if the body fits and is read from it. -/
theorem fits_of_parse (h : parse kind suite bs = .ok (body, [])) :
    body.Fits suite kind ∧ body.ReadFrom bs := by
  -- The body is read by the type, so each type gives one shape of body.
  cases kind <;> simp only [parse, map_eq_ok_iff, pure_eq_ok_iff, rest_eq_ok_iff] at h
  case helloRequest =>
    obtain ⟨rfl, rfl⟩ := h
    exact ⟨.helloRequest, .written⟩
  case serverHelloDone =>
    obtain ⟨rfl, rfl⟩ := h
    exact ⟨.serverHelloDone, .written⟩
  case clientHello =>
    obtain ⟨hello, hparse, rfl⟩ := h
    obtain ⟨hwritable, rfl | ⟨hnone, rfl⟩⟩ := ClientHello.parse_eq_ok_iff.1 hparse
    · exact ⟨.clientHello hwritable, .written⟩
    · exact ⟨.clientHello hwritable, .emptyBlock rfl hnone⟩
  case serverHello =>
    obtain ⟨hello, hparse, rfl⟩ := h
    obtain ⟨hwritable, rfl⟩ := ServerHello.parse_eq_ok_iff.1 hparse
    exact ⟨.serverHello hwritable, .written⟩
  case certificate =>
    obtain ⟨chain, hparse, rfl⟩ := h
    obtain ⟨hfits, hbytes⟩ := CertificateChain.parse_eq_ok_iff.1 hparse
    rw [List.append_nil] at hbytes
    exact ⟨.certificate hfits, hbytes ▸ .written⟩
  case serverKeyExchange =>
    obtain ⟨data, ⟨rfl, -⟩, rfl⟩ := h
    exact ⟨.serverKeyExchange bs, .written⟩
  case certificateRequest =>
    obtain ⟨data, ⟨rfl, -⟩, rfl⟩ := h
    exact ⟨.certificateRequest bs, .written⟩
  case clientKeyExchange =>
    obtain ⟨exchange, hparse, rfl⟩ := h
    obtain ⟨hlength, hbytes⟩ := KeyExchange.parse_eq_ok_iff.1 hparse
    rw [List.append_nil] at hbytes
    exact ⟨.clientKeyExchange hlength, hbytes ▸ .written⟩
  case finished =>
    cases suite with
    | none => cases h
    | some suite =>
      obtain ⟨message, hparse, rfl⟩ := map_eq_ok_iff.1 h
      obtain ⟨hlength, hbytes⟩ := Finished.parse_eq_ok_iff.1 hparse
      rw [List.append_nil] at hbytes
      exact ⟨.finished rfl hlength, hbytes ▸ .written⟩
  all_goals
    obtain ⟨data, ⟨rfl, -⟩, rfl⟩ := h
    exact ⟨.unknown (by trivial) bs, .written⟩

theorem parse_of_fits (h : body.Fits suite kind) (hbytes : body.ReadFrom bs) :
    parse kind suite bs = .ok (body, []) := by
  -- Only the hello of a client is read from more than one byte string.
  have hsingle : (∀ hello, body ≠ .clientHello hello) → bs = body.toBytes := hbytes.eq_toBytes
  cases h with
  | helloRequest =>
    obtain rfl := hsingle nofun
    rfl
  | serverHelloDone =>
    obtain rfl := hsingle nofun
    rfl
  | @clientHello hello h =>
    have hinput : bs = hello.toBytes ∨ hello.extensions = [] ∧ bs = hello.toBytes ++ [0, 0] := by
      cases hbytes with
      | written => exact .inl rfl
      | emptyBlock hhello hnone =>
        cases hhello
        exact .inr ⟨hnone, rfl⟩
    exact map_eq_ok_iff.2 ⟨hello, ClientHello.parse_eq_ok_iff.2 ⟨h, hinput⟩, rfl⟩
  | @serverHello hello h =>
    obtain rfl := hsingle nofun
    exact map_eq_ok_iff.2 ⟨hello, ServerHello.parse_eq_ok_iff.2 ⟨h, rfl⟩, rfl⟩
  | @certificate chain h =>
    obtain rfl := hsingle nofun
    have hparse := CertificateChain.parse_eq_ok_iff.2 ⟨h, (List.append_nil _).symm⟩
    exact map_eq_ok_iff.2 ⟨chain, hparse, rfl⟩
  | serverKeyExchange data =>
    obtain rfl := hsingle nofun
    exact map_eq_ok_iff.2 ⟨bs, rest_eq_ok_iff.2 ⟨rfl, rfl⟩, rfl⟩
  | certificateRequest data =>
    obtain rfl := hsingle nofun
    exact map_eq_ok_iff.2 ⟨bs, rest_eq_ok_iff.2 ⟨rfl, rfl⟩, rfl⟩
  | @clientKeyExchange exchange h =>
    obtain rfl := hsingle nofun
    have hparse := KeyExchange.parse_eq_ok_iff.2 ⟨h, (List.append_nil _).symm⟩
    exact map_eq_ok_iff.2 ⟨exchange, hparse, rfl⟩
  | @finished message hsuite h =>
    obtain rfl := hsingle nofun
    obtain ⟨suite, rfl⟩ := Option.isSome_iff_exists.1 hsuite
    have hparse : Finished.parse suite message.verifyData = .ok (message, []) :=
      Finished.parse_eq_ok_iff.2 ⟨h, (List.append_nil _).symm⟩
    exact map_eq_ok_iff.2 ⟨message, hparse, rfl⟩
  | unknown hkind data =>
    obtain rfl := hsingle nofun
    cases kind with
    | newSessionTicket | certificateVerify | unknown _ =>
      exact map_eq_ok_iff.2 ⟨bs, rest_eq_ok_iff.2 ⟨rfl, rfl⟩, rfl⟩
    | _ => exact hkind.elim

/-- A body is read exactly from the forms that it may have, if it is one that fits. -/
theorem parse_eq_ok_iff :
    parse kind suite bs = .ok (body, []) ↔ body.Fits suite kind ∧ body.ReadFrom bs :=
  ⟨fits_of_parse, fun h => parse_of_fits h.1 h.2⟩

end HandshakeBody

namespace Handshake

variable {suite : Option CipherSuite} {m : Handshake} {bs rest : Bytes}

/-- What is asked of a message for its written form to be read back: a type that is written as the
code that it has a name for, and a body for it whose length can be written. -/
structure Writable (suite : Option CipherSuite) (m : Handshake) : Prop where
  kind : m.header.kind.Canonical
  body : m.body.Fits suite m.header.kind
  length_lt : m.body.toBytes.length < 2 ^ 24

/-- A message is read off the front if and only if its header and what its body is read from are
there, as many bytes of it as the header says. -/
theorem parse_eq_ok_iff :
    Handshake.parse suite bs = .ok (m, rest) ↔
      m.header.kind.Canonical ∧ m.header.length < 2 ^ 24 ∧ m.body.Fits suite m.header.kind ∧
        ∃ bytes, m.body.ReadFrom bytes ∧ bytes.length = m.header.length ∧
          bs = m.header.toBytes ++ (bytes ++ rest) := by
  simp only [Handshake.parse, bind_eq_ok_iff, HandshakeHeader.parse_eq_ok_iff, take_eq_ok_iff,
    within_eq_ok_iff, HandshakeBody.parse_eq_ok_iff, pure_eq_ok_iff]
  constructor
  · rintro ⟨header, _, ⟨hkind, hlength, rfl⟩, bytes, _, ⟨hbytes, rfl⟩, body, _,
      ⟨⟨hfits, hread⟩, rfl⟩, rfl, rfl⟩
    exact ⟨hkind, hlength, hfits, bytes, hread, hbytes, rfl⟩
  · rintro ⟨hkind, hlength, hfits, bytes, hread, hbytes, rfl⟩
    exact ⟨m.header, _, ⟨hkind, hlength, rfl⟩, bytes, rest, ⟨hbytes, rfl⟩, m.body, rest,
      ⟨⟨hfits, hread⟩, rfl⟩, rfl, rfl⟩

/-- A message that was read can be written again. -/
theorem Writable.of_parse (h : Handshake.parse suite bs = .ok (m, rest)) : m.Writable suite := by
  obtain ⟨hkind, hlength, hfits, bytes, hread, hbytes, -⟩ := parse_eq_ok_iff.1 h
  have hle : m.body.toBytes.length ≤ m.header.length := hbytes ▸ hread.length_toBytes_le
  exact ⟨hkind, hfits, Nat.lt_of_le_of_lt hle hlength⟩

/-- Messages other than the hello of a client are told apart by their bodies. -/
theorem eq_of_body_eq {suite' : Option CipherSuite} {m' : Handshake} {bs' : Bytes}
    (h : Handshake.parse suite bs = .ok (m, rest)) (h' : Handshake.parse suite' bs' = .ok (m', rest))
    (hbody : ∀ hello, m.body ≠ .clientHello hello) (hsame : m'.body = m.body) : bs' = bs := by
  obtain ⟨hkind, -, hfits, bytes, hread, hbytes, rfl⟩ := parse_eq_ok_iff.1 h
  obtain ⟨hkind', -, hfits', bytes', hread', hbytes', rfl⟩ := parse_eq_ok_iff.1 h'
  rw [hsame] at hfits' hread'
  -- The body tells the type and the bytes, and so the length in the header.
  have htype : m'.header.kind = m.header.kind := hfits'.kind_eq hfits hkind' hkind
  have heq : bytes' = bytes := (hread'.eq_toBytes hbody).trans (hread.eq_toBytes hbody).symm
  have hlength : m'.header.length = m.header.length := by rw [← hbytes', ← hbytes, heq]
  rw [HandshakeHeader.toBytes, HandshakeHeader.toBytes, htype, hlength, heq]

/-- What is written behind anything else is read back with anything behind it: the same type and the
same body, under a header with the length of the body. -/
theorem parse_appendTo (hm : m.Writable suite) (output rest : Bytes) :
    ∃ written, m.appendTo output = output ++ written ∧
      Handshake.parse suite (written ++ rest) =
        .ok ({ m with header.length := m.body.toBytes.length }, rest) := by
  have hwritten : m.toBytes = HandshakeHeader.toBytes ⟨m.header.kind, m.body.toBytes.length⟩ ++
      m.body.toBytes := toBytes_eq m.header.kind m.header.length m.body
  refine ⟨m.toBytes, appendTo_eq output m, ?_⟩
  rw [hwritten, List.append_assoc]
  exact parse_eq_ok_iff.2 ⟨hm.kind, hm.length_lt, hm.body, m.body.toBytes, .written, rfl, rfl⟩

def helloWithExtensions : Handshake where
  header := ⟨.serverHello, 0⟩
  body := .serverHello {
    version := .tls12
    random := ⟨7, Octets.ofBytes 28 [1, 2]⟩
    sessionId := .empty
    suite := .rsaAes128CbcSha256
    compression := .null
    extensions := some [⟨.renegotiationInfo, [0]⟩, ⟨.unknown 16, []⟩] }

/-- The hello is read back from between other bytes. -/
theorem helloWithExtensions_read_back : helloWithExtensions.Writable none ∧
    ∃ written, helloWithExtensions.appendTo [22, 3, 3] = [22, 3, 3] ++ written ∧
      Handshake.parse none (written ++ [14, 0]) =
        .ok ({ helloWithExtensions with header.length := 49 }, [14, 0]) := by
  have hwritable : helloWithExtensions.Writable none := by
    refine ⟨rfl, .serverHello ⟨rfl, rfl, rfl, ?_⟩, by decide⟩
    intro es hes
    cases hes
    exact ⟨by decide, by decide, by decide, by decide⟩
  exact ⟨hwritable, parse_appendTo hwritable [22, 3, 3] [14, 0]⟩

/-- What a message was read from is what it is written as, and every length in it can be written. The
one exception is the hello of a client with an empty block of extensions, which is written without
the block and with a length that is smaller by its two bytes. All other messages are told apart by
their bodies. -/
theorem appendTo_of_parse (h : Handshake.parse suite bs = .ok (m, rest)) :
    m.Writable suite ∧
    ((m.header.length = m.body.toBytes.length ∧ m.appendTo [] ++ rest = bs) ∨
      ∃ hello, m.body = .clientHello hello ∧ hello.extensions = [] ∧
        m.header.length = hello.toBytes.length + 2 ∧
        bs = HandshakeHeader.toBytes ⟨.clientHello, hello.toBytes.length + 2⟩ ++ hello.toBytes ++
          [0, 0] ++ rest ∧
        m.appendTo [] =
          HandshakeHeader.toBytes ⟨.clientHello, hello.toBytes.length⟩ ++ hello.toBytes) ∧
    ∀ suite' bs' m', (∀ hello, m.body ≠ .clientHello hello) →
      Handshake.parse suite' bs' = .ok (m', rest) → m'.body = m.body → bs' = bs := by
  refine ⟨.of_parse h, ?_, fun suite' bs' m' hbody h' hsame => eq_of_body_eq h h' hbody hsame⟩
  obtain ⟨hkind, -, hfits, bytes, hread, hbytes, rfl⟩ := parse_eq_ok_iff.1 h
  obtain ⟨⟨kind, length⟩, body⟩ := m
  have hwritten : Handshake.appendTo [] ⟨⟨kind, length⟩, body⟩ =
      HandshakeHeader.toBytes ⟨kind, body.toBytes.length⟩ ++ body.toBytes :=
    toBytes_eq kind length body
  rw [hwritten]
  cases hread with
  | written =>
    obtain rfl : body.toBytes.length = length := hbytes
    exact .inl ⟨rfl, List.append_assoc _ _ _⟩
  | @emptyBlock hello hbody hnone =>
    obtain rfl : body = .clientHello hello := hbody
    obtain rfl : (hello.toBytes ++ [0, 0]).length = length := hbytes
    -- Only a message of its own type carries the hello of a client.
    cases hfits
    have hlength : (hello.toBytes ++ [0, 0]).length = hello.toBytes.length + 2 := List.length_append
    rw [hlength]
    refine .inr ⟨hello, rfl, hnone, rfl, ?_, rfl⟩
    simp only [List.append_assoc]

def helloWithEmptyBlock : Bytes :=
  [1, 0, 0, 43, 3, 3] ++ List.replicate 32 0 ++ [0, 0, 2, 0, 156, 1, 0, 0, 0, 14]

/-- The hello is accepted, and written again it is shorter by the length of the empty block. -/
theorem helloWithEmptyBlock_shortened : ∃ m hello,
    Handshake.parse none helloWithEmptyBlock = .ok (m, [14]) ∧ m.Writable none ∧
      m.header.length = 43 ∧ m.body = .clientHello hello ∧
      m.appendTo [] = [1, 0, 0, 41] ++ hello.toBytes := by
  let hello : ClientHello :=
    ⟨.tls12, ⟨0, Octets.ofBytes 28 []⟩, .empty, [.rsaAes128GcmSha256], [.null], []⟩
  have hparse : Handshake.parse none helloWithEmptyBlock =
      .ok (⟨⟨.clientHello, 43⟩, .clientHello hello⟩, [14]) := rfl
  have hlength : hello.toBytes.length = 41 := by decide
  have hheader : HandshakeHeader.toBytes ⟨.clientHello, 41⟩ = [1, 0, 0, 41] := rfl
  obtain ⟨hwritable, hbytes, -⟩ := appendTo_of_parse hparse
  refine ⟨_, hello, hparse, hwritable, rfl, rfl, ?_⟩
  rcases hbytes with ⟨hlength, -⟩ | ⟨_, hbody, -, -, -, happend⟩
  · exact absurd hlength (by decide)
  · cases hbody
    rw [happend, hlength, hheader]

end Handshake
end TlsClient
