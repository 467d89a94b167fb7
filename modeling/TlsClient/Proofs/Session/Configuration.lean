import TlsClient.Proofs.Session.Offer

namespace TlsClient

open Network

/-- The first suite of a list that is not supported. -/
def CipherSuite.FirstUnsupported (suites : List CipherSuite) (bad : CipherSuite) : Prop :=
  ∃ before behind, suites = before ++ bad :: behind ∧ (∀ s ∈ before, s.supported = true) ∧
    bad.supported = false

/-- The search for an unsupported suite finds the first one of the list. -/
theorem CipherSuite.find?_eq_some_iff {suites : List CipherSuite} {bad : CipherSuite} :
    suites.find? (!·.supported) = some bad ↔ FirstUnsupported suites bad := by
  rw [List.find?_eq_some_iff_append, FirstUnsupported]
  constructor
  · rintro ⟨hbad, before, behind, hsuites, hbefore⟩
    exact ⟨before, behind, hsuites, by simpa using hbefore, by simpa using hbad⟩
  · rintro ⟨before, behind, hsuites, hbefore, hbad⟩
    exact ⟨by simpa using hbad, before, behind, hsuites, by simpa using hbefore⟩

namespace Config.Draft

open CipherSuite

variable {d : Draft} {config : Config}

structure KeptBy (d : Draft) (config : Config) : Prop where
  pollLimit : config.pollLimit = max d.pollLimit 1
  suites : config.suites = d.suites
  verifyFinished : config.verifyFinished = d.verifyFinished
  verifyMac : config.verifyMac = d.verifyMac
  seed : config.seed = d.seed

theorem build_of_unsupported {bad : CipherSuite} (h : FirstUnsupported d.suites bad) :
    d.build = .error (.unsupportedCipherSuite bad.code) := by
  have hfind := find?_eq_some_iff.2 h
  rw [build]
  split
  · rename_i other hother
    rw [hfind] at hother
    cases hother
    rfl
  · rename_i hnone
    rw [hfind] at hnone
    cases hnone

theorem build_of_nil (h : d.suites = []) : d.build = .error (.crypto .noCipherSuites) := by
  rw [build]
  split
  · rename_i bad hbad
    rw [h] at hbad
    cases hbad
  · rw [dif_pos h]

/-- A list of supported suites is accepted, however often one is in it. -/
theorem build_of_supported (hne : d.suites ≠ []) (hall : ∀ s ∈ d.suites, s.supported = true) :
    ∃ config, d.build = .ok config ∧ d.KeptBy config := by
  rw [build]
  split
  · rename_i bad hbad
    obtain ⟨before, behind, hsuites, -, hunsupported⟩ := find?_eq_some_iff.1 hbad
    have hsupported := hall bad (by simp [hsuites])
    rw [hunsupported] at hsupported
    cases hsupported
  · rw [dif_neg hne]
    exact ⟨_, rfl, ⟨rfl, rfl, rfl, rfl, rfl⟩⟩

/-- A list of suites is empty, has one to blame, or is fine. -/
theorem suites_cases (suites : List CipherSuite) : suites = [] ∨
    (∃ bad, FirstUnsupported suites bad) ∨ suites ≠ [] ∧ ∀ s ∈ suites, s.supported = true := by
  by_cases hne : suites = []
  · exact .inl hne
  · cases hfind : suites.find? (!·.supported) with
    | some bad => exact .inr (.inl ⟨bad, find?_eq_some_iff.1 hfind⟩)
    | none => exact .inr (.inr ⟨hne, by simpa using hfind⟩)

/-- A configuration can be built exactly from lists of supported suites that are not empty. -/
theorem exists_build_iff :
    (∃ config, d.build = .ok config) ↔ d.suites ≠ [] ∧ ∀ s ∈ d.suites, s.supported = true := by
  constructor
  · rintro ⟨config, h⟩
    rcases suites_cases d.suites with hnil | ⟨bad, hbad⟩ | hfine
    · rw [build_of_nil hnil] at h
      cases h
    · rw [build_of_unsupported hbad] at h
      cases h
    · exact hfine
  · rintro ⟨hne, hall⟩
    obtain ⟨config, h, -⟩ := build_of_supported hne hall
    exact ⟨config, h⟩

/-- Building a configuration changes no choice. -/
theorem keptBy_of_build (h : d.build = .ok config) : d.KeptBy config := by
  obtain ⟨hne, hall⟩ := exists_build_iff.1 ⟨config, h⟩
  obtain ⟨other, hother, hkept⟩ := build_of_supported hne hall
  obtain rfl := Except.ok.inj (h.symm.trans hother)
  exact hkept

/-- A failure to build one is about an empty list or the first suite that is not supported. -/
theorem build_eq_error_iff {e : Error} : d.build = .error e ↔
    d.suites = [] ∧ e = .crypto .noCipherSuites ∨
      ∃ bad, FirstUnsupported d.suites bad ∧ e = .unsupportedCipherSuite bad.code := by
  constructor
  · intro h
    rcases suites_cases d.suites with hnil | ⟨bad, hbad⟩ | ⟨hne, hall⟩
    · exact .inl ⟨hnil, Except.error.inj (h.symm.trans (build_of_nil hnil))⟩
    · exact .inr ⟨bad, hbad, Except.error.inj (h.symm.trans (build_of_unsupported hbad))⟩
    · obtain ⟨config, hconfig, -⟩ := build_of_supported hne hall
      rw [hconfig] at h
      cases h
  · rintro (⟨hnil, rfl⟩ | ⟨bad, hbad, rfl⟩)
    · exact build_of_nil hnil
    · exact build_of_unsupported hbad

end Config.Draft

namespace Session

open Config.Draft CipherSuite

section
variable {τ ρ : Type}

/-- From `s` to `t` the first that was sent is one record with one hello, which offers the suites. -/
def Offers (s t : Session (Recorded τ) ρ) (suites : List CipherSuite) : Prop :=
  ∃ first message hello more, t.transport.sent = s.transport.sent ++ first :: more ∧
    Record.parse first = .ok (⟨.handshake, .tls12, message⟩, []) ∧
    (∀ suite, Handshake.parse suite message =
      .ok (⟨⟨.clientHello, hello.toBytes.length⟩, .clientHello hello⟩, [])) ∧
    hello.suites = suites

variable [Transport τ] [RandomSource ρ]

/-- Every handshake whose transport connects begins with what was configured. -/
theorem handshake_offers {s : Session (Recorded τ) ρ} (hs : Reachable s)
    (hstate : s.connection.state = .init) {peer : Endpoint} {id : LinkId} {inner : τ}
    (hconnect : Transport.connect s.transport.inner peer = (.ok id, inner)) (fuel : Nat)
    (now : Clock) {host : String} (hhost : host.utf8ByteSize ≤ hostLimit) :
    Offers s (after (handshake fuel now host peer) s) s.config.suites := by
  obtain ⟨more, hmore⟩ : Begins s (after (handshake fuel now host peer) s) _ :=
    handshake_begins (hs.connection_eq_fresh hstate) hconnect fuel hhost
  exact ⟨_, _, _, more, hmore.symm.trans (List.append_assoc _ _ _), parse_helloRecord _ _ hhost,
    parse_helloMessage _ _ hhost, rfl⟩

/-- Of the suites that are chosen the first eight count. A configuration is built exactly if there are
any and each of these is supported. It is refused because there are none, or with the code of the first
of the eight that is not supported, and for no other reason. A configuration that is built holds the
eight in their order, and every handshake under it whose transport connects offers them like that. -/
theorem suites_offered (d : Config.Draft) (suites : List CipherSuite) :
    ((∃ config, (d.withSuites suites).build = .ok config) ↔
      suites ≠ [] ∧ ∀ s ∈ suites.take 8, s.supported = true) ∧
    (∀ e, (d.withSuites suites).build = .error e ↔
      suites = [] ∧ e = .crypto .noCipherSuites ∨
        ∃ bad, FirstUnsupported (suites.take 8) bad ∧ e = .unsupportedCipherSuite bad.code) ∧
    (∀ config, (d.withSuites suites).build = .ok config → config.suites = suites.take 8 ∧
      ∀ s : Session (Recorded τ) ρ, Reachable s → s.config = config →
        s.connection.state = .init → ∀ peer id inner,
          Transport.connect s.transport.inner peer = (.ok id, inner) →
            ∀ fuel now host, host.utf8ByteSize ≤ 255 →
              Offers s (after (handshake fuel now host peer) s) (suites.take 8)) := by
  have hnil : suites.take 8 = [] ↔ suites = [] := by simp
  refine ⟨?_, fun e => ?_, fun config h => ?_⟩
  · rw [exists_build_iff]
    exact and_congr_left' (not_congr hnil)
  · rw [build_eq_error_iff]
    exact or_congr_left (and_congr_left' hnil)
  · have hsuites : config.suites = suites.take 8 := (keptBy_of_build h).suites
    refine ⟨hsuites, fun s hs hconfig hstate peer id inner hconnect fuel now host hhost => ?_⟩
    have hoffers := handshake_offers hs hstate hconnect fuel now hhost
    rwa [hconfig, hsuites] at hoffers

end

open Simulation in
/-- A caller who prefers the suite that comes second otherwise offers it first. -/
theorem preferred_offered : ∃ config s,
    (Config.Draft.standard.withSuites [.rsaAes128CbcSha256, .rsaAes128GcmSha256]).build =
      .ok config ∧
    config.suites = [.rsaAes128CbcSha256, .rsaAes128GcmSha256] ∧
    s = start (Recorded.start Tape.sample) config Tape.client.random ∧ Reachable s ∧
    Offers s (after (handshake 100 ⟨0, 0⟩ "süd" .unspecified) s)
      [.rsaAes128CbcSha256, .rsaAes128GcmSha256] := by
  obtain ⟨hbuild, -, hoffers⟩ := @suites_offered Tape ScriptedSource _ _ Config.Draft.standard
    [.rsaAes128CbcSha256, .rsaAes128GcmSha256]
  obtain ⟨config, hconfig⟩ := hbuild.2 ⟨by decide, by decide⟩
  obtain ⟨hsuites, hsession⟩ := hoffers config hconfig
  have hstart : Reachable (start (Recorded.start Tape.sample) config Tape.client.random) :=
    .start ..
  exact ⟨config, _, hconfig, hsuites, rfl, hstart,
    hsession _ hstart rfl rfl .unspecified ⟨7⟩ Tape.sample rfl 100 ⟨0, 0⟩ "süd" (by decide)⟩

/-- A ninth suite is not looked at, even if it is not supported, and it is not offered. -/
theorem ninth_suite_dropped : ∃ suites others : List CipherSuite,
    suites = List.replicate 8 .rsaAes128GcmSha256 ++ [.unknown 0xc02f] ∧
    (∃ config, (Config.Draft.standard.withSuites suites).build = .ok config) ∧
    ¬ (∀ s ∈ suites, s.supported = true) ∧
    others = List.replicate 9 .rsaAes128CbcSha256 ∧
    ∃ config, (Config.Draft.standard.withSuites others).build = .ok config ∧
      config.suites ≠ others := by
  refine ⟨_, _, rfl, exists_build_iff.2 ⟨by decide, by decide⟩, by decide, rfl, ?_⟩
  obtain ⟨config, h, hkept⟩ := build_of_supported
    (d := Config.Draft.standard.withSuites (List.replicate 9 .rsaAes128CbcSha256))
    (by decide) (by decide)
  refine ⟨config, h, ?_⟩
  rw [hkept.suites]
  decide

end Session
end TlsClient
