import TlsClient.Error

/-!
What a session is configured with. A `Config` is only made by `Config.Draft.build`, which checks the
cipher suites, so every configuration offers at least one suite and only supported ones.
-/

namespace TlsClient

def Config.suiteLimit : Nat := 8

structure Config where
  /-- How often a transport is asked for bytes while waiting for one record. -/
  pollLimit : Nat
  suites : List CipherSuite
  verifyFinished : Bool
  verifyMac : Bool
  /-- The seed of the random numbers, if they are to be reproducible. -/
  seed : Option UInt64
  pollLimit_pos : 0 < pollLimit
  suites_ne_nil : suites ≠ []
  length_suites_le : suites.length ≤ Config.suiteLimit
  supported_of_mem : ∀ s ∈ suites, s.supported = true
deriving DecidableEq

structure Config.Draft where
  pollLimit : Nat
  suites : List CipherSuite
  verifyFinished : Bool
  verifyMac : Bool
  seed : Option UInt64
  length_suites_le : suites.length ≤ Config.suiteLimit
deriving DecidableEq

namespace Config

namespace Draft

def standard : Draft where
  pollLimit := 1000000
  suites := CipherSuite.all
  verifyFinished := true
  verifyMac := true
  seed := none
  length_suites_le := by decide

/-- Offers the given suites, as many of them as there is room for. -/
def withSuites (d : Draft) (suites : List CipherSuite) : Draft :=
  { d with
    suites := suites.take suiteLimit
    length_suites_le := List.length_take_le _ _ }

def build (d : Draft) : Except Error Config :=
  match h : d.suites.find? (!·.supported) with
  -- The first suite that is not supported is the one to blame.
  | some bad => .error (.unsupportedCipherSuite bad.code)
  | none =>
    if hne : d.suites = [] then .error (.crypto .noCipherSuites) else
      .ok {
        -- With no polls at all no record could ever be received.
        pollLimit := max d.pollLimit 1
        suites := d.suites
        verifyFinished := d.verifyFinished
        verifyMac := d.verifyMac
        seed := d.seed
        pollLimit_pos := by omega
        suites_ne_nil := hne
        length_suites_le := d.length_suites_le
        supported_of_mem := by simpa using h }

end Draft

def standard : Config where
  pollLimit := 1000000
  suites := CipherSuite.all
  verifyFinished := true
  verifyMac := true
  seed := none
  pollLimit_pos := by decide
  suites_ne_nil := by decide
  length_suites_le := by decide
  supported_of_mem := by decide

end Config
end TlsClient
