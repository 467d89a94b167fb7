import TlsClient.Natural.Basic

namespace TlsClient.Natural

def rem (a m : Natural) : Except ArithmeticError Natural :=
  if m.isZero then .error .divisionByZero else ofWords (Words.rem a.words m.words)

def modMul (a b m : Natural) : Except ArithmeticError Natural :=
  if m.isZero then .error .divisionByZero else
    ofWords (Words.rem (Words.mul a.words b.words) m.words)

def powBits (m : Natural) : List Bool → (acc base : Natural) → Except ArithmeticError Natural
  | [], acc, _ => .ok acc
  | bit :: bits, acc, base => do
    let acc ← if bit then acc.modMul base m else .ok acc
    -- The square after the last digit is not needed, but it is computed.
    let base ← base.modMul base m
    powBits m bits acc base

def modPow (a e m : Natural) : Except ArithmeticError Natural := do
  -- Modulo one even the empty product is zero.
  let acc ← one.rem m
  let base ← a.rem m
  powBits m e.bits acc base

end TlsClient.Natural
