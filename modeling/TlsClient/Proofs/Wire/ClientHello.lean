import TlsClient.Proofs.Wire.Written

namespace TlsClient

open Wire.Parser

namespace ClientHello

/-- What is asked of a hello for its written form to be read back: known codes where there are names
for them, and lists that are not empty where they have to have something in them, each with a place
for all of its items. -/
structure Writable (h : ClientHello) : Prop where
  version : h.version.Canonical
  suites_ne_nil : h.suites ≠ []
  length_suites_le : h.suites.length ≤ suitePlaces
  suites : ∀ s ∈ h.suites, s.Canonical
  compression_ne_nil : h.compression ≠ []
  length_compression_le : h.compression.length ≤ compressionPlaces
  compression : ∀ m ∈ h.compression, m.Canonical
  extensions : Extension.Fits extensionPlaces h.extensions

def writtenExtensions (es : List Extension) : Bytes :=
  if es.isEmpty then [] else Extension.listToBytes es

theorem writtenExtensions_of_ne_nil {es : List Extension} (h : es ≠ []) :
    writtenExtensions es = Extension.listToBytes es := by
  have hfalse : es.isEmpty = false := List.isEmpty_eq_false_iff.2 h
  rw [writtenExtensions, hfalse]
  rfl

/-- The lists of a hello are written item by item, each behind the length of the whole list. -/
theorem toBytes_eq (h : ClientHello) :
    h.toBytes = h.version.toBytes ++ (h.random.toBytes ++ (h.sessionId.toBytes ++
      (Bytes.ofNat 2 (h.suites.flatMap CipherSuite.toBytes).length ++
        h.suites.flatMap CipherSuite.toBytes ++
        (Bytes.ofNat 1 (h.compression.flatMap fun m => [m.code]).length ++
          (h.compression.flatMap fun m => [m.code]) ++ writtenExtensions h.extensions)))) := by
  have hmethods : (h.compression.flatMap fun m => [m.code]) =
      h.compression.map CompressionMethod.code := List.map_eq_flatMap.symm
  have hone : Bytes.ofNat 1 h.compression.length = [UInt8.ofNat h.compression.length] := rfl
  rw [toBytes, length_flatMap_suites, hmethods, List.length_map, hone]
  simp only [List.append_assoc]
  rfl

/-- An empty list of extensions is read off nothing and off a block of length zero. -/
theorem extensions_eq_ok_iff {input : Bytes} {es : List Extension} :
    (if input.isEmpty then pure [] else Extension.parseList extensionPlaces :
        Wire.Parser (List Extension)) input = .ok (es, []) ↔
      Extension.Fits extensionPlaces es ∧
        (input = writtenExtensions es ∨ es = [] ∧ input = [0, 0]) := by
  have hnone : Extension.listToBytes [] = [0, 0] := rfl
  by_cases hempty : input = []
  · subst hempty
    constructor
    · intro h
      obtain ⟨rfl, -⟩ := pure_eq_ok_iff.1 h
      exact ⟨⟨Nat.zero_le _, nofun, by decide⟩, .inl rfl⟩
    · rintro ⟨-, hwritten | ⟨rfl, hzeros⟩⟩
      · by_cases hes : es = []
        · subst hes
          rfl
        · rw [writtenExtensions_of_ne_nil hes] at hwritten
          exact absurd hwritten.symm (Extension.listToBytes_ne_nil es)
      · cases hzeros
  · have hfalse : input.isEmpty = false := List.isEmpty_eq_false_iff.2 hempty
    have hread : Extension.parseList extensionPlaces input = .ok (es, []) ↔
        Extension.Fits extensionPlaces es ∧ input = Extension.listToBytes es := by
      rw [Extension.parseList_eq_ok_iff, List.append_nil]
    rw [hfalse]
    refine hread.trans (and_congr_right fun _ => ?_)
    by_cases hes : es = []
    · subst hes
      rw [hnone]
      exact ⟨fun h => .inr ⟨rfl, h⟩, fun h => h.elim (absurd · hempty) And.right⟩
    · rw [writtenExtensions_of_ne_nil hes]
      exact ⟨.inl, fun h => h.elim id fun h => absurd h.1 hes⟩

/-- A hello that is read to the end is the written form of what it reads to, or that and an empty
block of extensions. -/
theorem parse_eq_ok_iff {input : Bytes} {h : ClientHello} :
    parse input = .ok (h, []) ↔
      h.Writable ∧ (input = h.toBytes ∨ h.extensions = [] ∧ input = h.toBytes ++ [0, 0]) := by
  simp only [parse, ite_bind, bind_eq_ok_iff, get_eq_ok_iff, pure_eq_ok_iff,
    ProtocolVersion.parse_eq_ok_iff, HelloRandom.parse_eq_ok_iff, SessionId.parse_eq_ok_iff,
    block_eq_ok_iff, within_eq_ok_iff, CipherSuite.codec.many1_eq_ok_iff,
    CompressionMethod.codec.many1_eq_ok_iff]
  constructor
  · intro hp
    obtain ⟨version, _, ⟨hversion, rfl⟩, random, _, rfl, sessionId, _, rfl, _, _, ⟨-, rfl⟩, suites,
      _, ⟨⟨hsome, hplaces, hsuites, rfl⟩, rfl⟩, _, _, ⟨-, rfl⟩, compression, _,
      ⟨⟨hsome', hplaces', hmethods, rfl⟩, rfl⟩, _, _, ⟨rfl, rfl⟩, extensions, _, hextensions, rfl,
      rfl⟩ := hp
    obtain ⟨hfits, hwritten⟩ := extensions_eq_ok_iff.1 hextensions
    have hbytes := toBytes_eq ⟨version, random, sessionId, suites, compression, extensions⟩
    refine ⟨⟨hversion, hsome, hplaces, hsuites, hsome', hplaces', hmethods, hfits⟩, ?_⟩
    rcases hwritten with rfl | ⟨rfl, rfl⟩
    · exact .inl hbytes.symm
    · refine .inr ⟨rfl, ?_⟩
      have hnone : writtenExtensions [] = [] := rfl
      rw [hbytes, hnone]
      simp only [List.append_assoc, List.nil_append]
  · rintro ⟨hw, hinput⟩
    have hsuites : (h.suites.flatMap CipherSuite.toBytes).length < 256 ^ 2 := by
      have hle : h.suites.length ≤ 32 := hw.length_suites_le
      rw [length_flatMap_suites]
      omega
    have hmethods : (h.compression.flatMap fun m => [m.code]).length < 256 ^ 1 := by
      have hle : h.compression.length ≤ 4 := hw.length_compression_le
      rw [← List.map_eq_flatMap, List.length_map]
      omega
    -- Both byte strings begin alike; they end with the block of extensions as it is written, or
    -- with an empty one.
    obtain ⟨tail, htail, hbytes⟩ : ∃ tail,
        (tail = writtenExtensions h.extensions ∨ h.extensions = [] ∧ tail = [0, 0]) ∧
        input = h.version.toBytes ++ (h.random.toBytes ++ (h.sessionId.toBytes ++
          (Bytes.ofNat 2 (h.suites.flatMap CipherSuite.toBytes).length ++
            h.suites.flatMap CipherSuite.toBytes ++
            (Bytes.ofNat 1 (h.compression.flatMap fun m => [m.code]).length ++
              (h.compression.flatMap fun m => [m.code]) ++ tail)))) := by
      rcases hinput with rfl | ⟨hnone, rfl⟩
      · exact ⟨_, .inl rfl, toBytes_eq h⟩
      · refine ⟨[0, 0], .inr ⟨hnone, rfl⟩, ?_⟩
        have hend : writtenExtensions h.extensions = [] := by
          rw [hnone]
          rfl
        rw [toBytes_eq, hend]
        simp only [List.append_assoc, List.nil_append]
    have hextensions := extensions_eq_ok_iff.2 ⟨hw.extensions, htail⟩
    exact ⟨h.version, _, ⟨hw.version, hbytes⟩, h.random, _, rfl, h.sessionId, _, rfl, _, _,
      ⟨hsuites, rfl⟩, h.suites, _, ⟨⟨hw.suites_ne_nil, hw.length_suites_le, hw.suites, rfl⟩, rfl⟩,
      _, _, ⟨hmethods, rfl⟩, h.compression, _, ⟨⟨hw.compression_ne_nil, hw.length_compression_le,
      hw.compression, rfl⟩, rfl⟩, _, _, ⟨rfl, rfl⟩, h.extensions, _, hextensions, rfl, rfl⟩

end ClientHello
end TlsClient
