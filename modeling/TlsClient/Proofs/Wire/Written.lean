import TlsClient.Proofs.Wire.Bodies

namespace TlsClient

open Wire.Parser

namespace CertificateChain

def entry (certificate : Bytes) : Bytes :=
  Bytes.ofNat 3 certificate.length ++ certificate

theorem entry_append_ne_nil (certificate rest : Bytes) : entry certificate ++ rest ≠ [] :=
  List.ne_nil_of_length_pos (by
    simp only [entry, List.length_append, Bytes.length_ofNat]
    omega)

theorem parseAll_nil (places : Nat) : parseAll places [] = .ok ([], []) := by
  cases places <;> rfl

/-- Certificates are read back one after the other, up to the end. -/
theorem parseAll_flatMap {places : Nat} {certificates : List Bytes}
    (hplaces : certificates.length ≤ places) (hlength : ∀ c ∈ certificates, c.length < 256 ^ 3) :
    parseAll places (certificates.flatMap entry) = .ok (certificates, []) := by
  induction certificates generalizing places with
  | nil => exact parseAll_nil places
  | cons c cs ih =>
    obtain ⟨hc, hcs⟩ := List.forall_mem_cons.1 hlength
    cases places with
    | zero => cases hplaces
    | succ places =>
      have hrest := ih (Nat.le_of_succ_le_succ hplaces) hcs
      have hblock : block 3 (entry c ++ cs.flatMap entry) = .ok (c, cs.flatMap entry) :=
        block_eq_ok_iff.2 ⟨hc, rfl⟩
      rw [List.flatMap_cons, parseAll, hblock]
      · dsimp only
        rw [hrest]
      · exact entry_append_ne_nil c _

/-- What was read of a list is all of it: each certificate in its place with its own length. -/
theorem eq_flatMap_of_parseAll {places : Nat} {certificates : List Bytes} {input left : Bytes}
    (h : parseAll places input = .ok (certificates, left)) :
    certificates.length ≤ places ∧ input = certificates.flatMap entry := by
  induction places generalizing input certificates left with
  | zero =>
    cases input with
    | nil =>
      obtain ⟨rfl, -⟩ := Prod.mk.inj (Except.ok.inj h)
      exact ⟨Nat.le_refl 0, rfl⟩
    | cons b bs =>
      rw [parseAll] at h
      · split at h <;> cases h
      · exact List.cons_ne_nil b bs
  | succ places ih =>
    cases input with
    | nil =>
      obtain ⟨rfl, -⟩ := Prod.mk.inj (Except.ok.inj h)
      exact ⟨Nat.zero_le _, rfl⟩
    | cons b bs =>
      rw [parseAll] at h
      · split at h
        · rename_i certificate rest hblock
          split at h
          · rename_i more _ hmore
            obtain ⟨rfl, -⟩ := Prod.mk.inj (Except.ok.inj h)
            obtain ⟨hplaces, rfl⟩ := ih hmore
            exact ⟨Nat.succ_le_succ hplaces, (block_eq_ok_iff.1 hblock).2⟩
          · cases h
        · cases h
      · exact List.cons_ne_nil b bs

structure Fits (c : CertificateChain) : Prop where
  length_le : c.certificates.length ≤ places
  length_lt : (c.certificates.flatMap entry).length < 2 ^ 24

theorem Fits.entry_length_lt {c : CertificateChain} (h : c.Fits) {certificate : Bytes}
    (hmem : certificate ∈ c.certificates) : certificate.length < 256 ^ 3 := by
  have hle : (entry certificate).length ≤ (c.certificates.flatMap entry).length :=
    Bytes.length_le_flatMap hmem
  have hlt := h.length_lt
  rw [entry, List.length_append] at hle
  omega

theorem toBytes_eq (c : CertificateChain) :
    c.toBytes = Bytes.ofNat 3 (c.certificates.flatMap entry).length ++
      c.certificates.flatMap entry := rfl

/-- A chain that is read is the written form of what it reads to. -/
theorem parse_eq_ok_iff {input rest : Bytes} {c : CertificateChain} :
    parse input = .ok (c, rest) ↔ c.Fits ∧ input = c.toBytes ++ rest := by
  rw [parse, bind_eq_ok_iff, toBytes_eq]
  simp only [block_eq_ok_iff]
  constructor
  · intro h
    obtain ⟨list, _, ⟨hlength, rfl⟩, hall⟩ := h
    cases hparse : parseAll places list with
    | error e =>
      rw [hparse] at hall
      cases hall
    | ok read =>
      rw [hparse] at hall
      obtain ⟨rfl, rfl⟩ := pure_eq_ok_iff.1 hall
      obtain ⟨hplaces, rfl⟩ := eq_flatMap_of_parseAll hparse
      exact ⟨⟨hplaces, hlength⟩, rfl⟩
  · rintro ⟨hfits, rfl⟩
    have hall := parseAll_flatMap hfits.length_le fun _ => hfits.entry_length_lt
    refine ⟨c.certificates.flatMap entry, rest, ⟨hfits.length_lt, rfl⟩, ?_⟩
    rw [hall]
    rfl

structure Writable (c : CertificateChain) : Prop where
  places : c.certificates.length ≤ places
  length_lt : c.toBytes.length < 2 ^ 24

theorem Writable.fits {c : CertificateChain} (h : c.Writable) : c.Fits := by
  refine ⟨h.places, ?_⟩
  have hlt := h.length_lt
  rw [toBytes_eq, List.length_append] at hlt
  omega

/-- A chain that can be written is read back. -/
theorem parse_toBytes {c : CertificateChain} (h : c.Writable) : parse c.toBytes = .ok (c, []) :=
  parse_eq_ok_iff.2 ⟨h.fits, (List.append_nil _).symm⟩

end CertificateChain

namespace Handshake

variable {kind : MessageType} {body : HandshakeBody} {suite : Option CipherSuite} {n : Nat}

/-- The length in the header is that of the body, whatever the header said before. -/
theorem appendTo_eq_header (output : Bytes) (m : Handshake) :
    m.appendTo output =
      output ++ HandshakeHeader.toBytes ⟨m.header.kind, m.body.toBytes.length⟩ ++ m.body.toBytes := by
  have hwritten : output ++ [m.header.kind.code] ++ [0, 0, 0] ++ m.body.toBytes =
      (output ++ [m.header.kind.code]) ++ ([0, 0, 0] ++ m.body.toBytes) := List.append_assoc _ _ _
  have hstart : output.length + 1 = (output ++ [m.header.kind.code]).length := by
    rw [List.length_append, List.length_singleton]
  have hheader : output.length + HandshakeHeader.byteLength =
      (output ++ [m.header.kind.code] ++ [0, 0, 0]).length := by
    rw [List.length_append, List.length_append, Nat.add_assoc]
    rfl
  have hlength : (output ++ [m.header.kind.code] ++ [0, 0, 0] ++ m.body.toBytes).length -
      output.length - HandshakeHeader.byteLength = m.body.toBytes.length := by
    rw [List.length_append, ← hheader]
    omega
  unfold appendTo
  dsimp only
  -- The three zeros are all that is taken out, and the length goes where they were.
  rw [hlength, hheader, List.drop_left, hstart, hwritten, List.take_left, HandshakeHeader.toBytes]
  simp only [List.append_assoc, List.cons_append, List.nil_append]

theorem toBytes_eq (kind : MessageType) (n : Nat) (body : HandshakeBody) :
    toBytes ⟨⟨kind, n⟩, body⟩ =
      HandshakeHeader.toBytes ⟨kind, body.toBytes.length⟩ ++ body.toBytes := by
  rw [toBytes, appendTo_eq_header, List.nil_append]

/-- What is written already stays as it is, and the message does not depend on it. -/
theorem appendTo_eq (output : Bytes) (m : Handshake) : m.appendTo output = output ++ m.toBytes := by
  rw [toBytes, appendTo_eq_header, appendTo_eq_header, List.append_assoc, List.nil_append]

theorem length_toBytes (m : Handshake) : m.toBytes.length = 4 + m.body.toBytes.length := by
  obtain ⟨⟨kind, n⟩, body⟩ := m
  rw [toBytes_eq, List.length_append, HandshakeHeader.length_toBytes]
  rfl

/-- A message as it is written announces its own body. -/
theorem isFramed_toBytes (hkind : kind.Canonical) (hlength : body.toBytes.length < 2 ^ 24) :
    IsFramed (toBytes ⟨⟨kind, n⟩, body⟩) := by
  apply completeLength_eq_some_iff.2
  refine ⟨⟨kind, body.toBytes.length⟩, body.toBytes, ?_, ?_, Nat.le_refl _⟩
  · exact HandshakeHeader.parse_eq_ok_iff.2 ⟨hkind, hlength, toBytes_eq kind n body⟩
  · exact length_toBytes _

/-- A message is read back if its body is. -/
theorem parse_toBytes (hkind : kind.Canonical) (hlength : body.toBytes.length < 2 ^ 24)
    (hbody : HandshakeBody.parse kind suite body.toBytes = .ok (body, [])) :
    Handshake.parse suite (toBytes ⟨⟨kind, n⟩, body⟩) =
      .ok (⟨⟨kind, body.toBytes.length⟩, body⟩, []) := by
  apply bind_eq_ok_iff.2
  refine ⟨⟨kind, body.toBytes.length⟩, body.toBytes, ?_, ?_⟩
  · exact HandshakeHeader.parse_eq_ok_iff.2 ⟨hkind, hlength, toBytes_eq kind n body⟩
  · apply bind_eq_ok_iff.2
    refine ⟨body.toBytes, [], take_eq_ok_iff.2 ⟨rfl, (List.append_nil _).symm⟩, ?_⟩
    apply bind_eq_ok_iff.2
    exact ⟨body, [], within_eq_ok_iff.2 ⟨hbody, rfl⟩, rfl⟩

end Handshake

namespace ClientHello

theorem length_flatMap_suites (suites : List CipherSuite) :
    (suites.flatMap CipherSuite.toBytes).length = 2 * suites.length := by
  induction suites with
  | nil => rfl
  | cons suite suites ih =>
    rw [List.flatMap_cons, List.length_append, ih, CipherSuite.toBytes, Bytes.length_ofNat,
      List.length_cons]
    omega

theorem length_toBytes_le (h : ClientHello) :
    h.toBytes.length ≤ 39 + h.sessionId.bytes.length + 2 * h.suites.length + h.compression.length +
      (Extension.listToBytes h.extensions).length := by
  have hrandom := h.random.length_toBytes
  have hsuites := length_flatMap_suites h.suites
  rw [ClientHello.toBytes]
  -- No extensions at all are written as nothing.
  split <;>
    simp only [List.length_append, List.length_cons, List.length_nil, List.length_map,
      Bytes.length_ofNat, ProtocolVersion.toBytes, SessionId.toBytes, hrandom, hsuites] <;>
    omega

theorem length_extensionsFor_le (host : String) :
    (Extension.listToBytes (extensionsFor host)).length ≤ host.utf8ByteSize + 19 := by
  have hhost : (ServerName.hostBytes ⟨host⟩).length = host.utf8ByteSize := rfl
  rw [extensionsFor]
  split <;>
    simp only [Extension.listToBytes, Extension.toBytes, ExtensionType.toBytes, ServerName.toBytes,
      SignatureAlgorithms.toBytes, SignatureAlgorithms.rsaSha256, SignatureScheme.toBytes,
      List.flatMap_cons, List.flatMap_nil, List.append_nil, List.nil_append, List.cons_append,
      List.length_append, List.length_cons, List.length_nil, Bytes.length_ofNat, hhost] <;>
    omega

end ClientHello

def ServerHello.message (h : ServerHello) : Bytes :=
  Handshake.toBytes ⟨⟨.serverHello, 0⟩, .serverHello h⟩

def CertificateChain.message (c : CertificateChain) : Bytes :=
  Handshake.toBytes ⟨⟨.certificate, 0⟩, .certificate c⟩

theorem ServerHello.parse_message {h : ServerHello} (hw : h.Writable)
    (hlength : h.toBytes.length < 2 ^ 24) (suite : Option CipherSuite) :
    Handshake.parse suite h.message =
      .ok (⟨⟨.serverHello, h.toBytes.length⟩, .serverHello h⟩, []) :=
  Handshake.parse_toBytes rfl hlength (map_eq_ok_iff.2 ⟨h, parse_toBytes hw, rfl⟩)

theorem CertificateChain.parse_message {c : CertificateChain} (hw : c.Writable)
    (suite : Option CipherSuite) :
    Handshake.parse suite c.message =
      .ok (⟨⟨.certificate, c.toBytes.length⟩, .certificate c⟩, []) :=
  Handshake.parse_toBytes rfl hw.length_lt (map_eq_ok_iff.2 ⟨c, parse_toBytes hw, rfl⟩)

end TlsClient
