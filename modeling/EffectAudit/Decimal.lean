/-! Decimal numbers as they are written, and rounding of exact quotients. -/
namespace EffectAudit

structure Decimal where
  negative : Bool
  digits : Nat
  exponent : Int
  deriving DecidableEq, Repr

def divRoundHalfEven (num den : Nat) : Nat :=
  let whole := num / den
  let rest := 2 * (num % den)
  if rest < den then whole
  else if rest > den then whole + 1
  else whole + whole % 2

namespace Decimal

def append (value : Nat) : List Nat → Nat × List Nat
  | [] => (value, [])
  | digit :: rest =>
    if value * 10 + digit < UInt64.size then append (value * 10 + digit) rest else (value, digit :: rest)

def ofDigits (negative : Bool) (whole fraction : List Nat) (exponent : Int) : Decimal :=
  let (digits, places) := append 0 whole
  let (digits, cut) := append digits fraction
  ⟨negative, digits, exponent + places.length - (fraction.length - cut.length)⟩

def overflowBound : Nat := Nat.pow 2 1024 - Nat.pow 2 970

def magnitudeReaches (digits : Nat) (exponent : Int) (bound : Nat) : Bool :=
  if exponent ≥ 0 then digits * Nat.pow 10 exponent.toNat ≥ bound
  else digits ≥ bound * Nat.pow 10 (-exponent).toNat

/-- Whether the nearest double is finite. The number of digits before the point settles all cases
but those near the bound, so no power that is out of proportion to the text is computed. -/
def isFinite (d : Decimal) : Bool :=
  if d.digits = 0 then true
  else
    let places := (Nat.toDigits 10 d.digits).length + d.exponent
    if places > 310 then false
    else if places < 308 then true
    else !magnitudeReaches d.digits d.exponent overflowBound

def roundBits (n : Nat) : Nat :=
  let unit := Nat.pow 2 (n.log2 + 1 - 53)
  divRoundHalfEven n unit * unit

def powerLimit : Nat := 308

def scalesToFinite (d : Decimal) : Bool :=
  d.digits = 0 || d.exponent < 0 ||
    (d.exponent ≤ powerLimit &&
      roundBits d.digits * roundBits (Nat.pow 10 d.exponent.toNat) < overflowBound)

def divideByPower (value : Float) (exponent : Nat) : Float :=
  if exponent ≤ powerLimit then value / Float.ofScientific 1 false exponent
  else if value == 0 then value
  else divideByPower (value / Float.ofScientific 1 false powerLimit) (exponent - powerLimit)
termination_by exponent
decreasing_by simp [powerLimit] at *; omega

def toFloat (d : Decimal) : Float :=
  let digits := Float.ofScientific d.digits false 0
  let size :=
    if d.exponent < 0 then divideByPower digits d.exponent.natAbs
    else if d.digits = 0 then digits
    else digits * Float.ofScientific 1 false d.exponent.natAbs
  if d.negative then -size else size

end Decimal

end EffectAudit
