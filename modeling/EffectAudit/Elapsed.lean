import EffectAudit.Decimal
/-! Elapsed time as it is shown: milliseconds with two places, rounded from the exact value of the
double, a half going to the even neighbour. -/
namespace EffectAudit.Elapsed

def hundredths (n : Nat) : String :=
  let cents := n % 100
  s!"{n / 100}.{cents / 10}{cents % 10}"

def roundHundredths (mantissa : Nat) (exponent : Int) : Nat :=
  if exponent ≥ 0 then mantissa * Nat.pow 2 exponent.toNat * 100
  else divRoundHalfEven (mantissa * 100) (Nat.pow 2 (-exponent).toNat)

def ofBits (bits : UInt64) : String :=
  let n := bits.toNat
  let sign := if n ≥ Nat.pow 2 63 then "-" else ""
  let exponent : Nat := n / Nat.pow 2 52 % Nat.pow 2 11
  let fraction : Nat := n % Nat.pow 2 52
  if exponent = 2047 then if fraction = 0 then s!"{sign}inf" else "NaN"
  else if exponent = 0 then sign ++ hundredths (roundHundredths fraction (-1074))
  else sign ++ hundredths (roundHundredths (Nat.pow 2 52 + fraction) ((exponent : Int) - 1075))

def text (milliseconds : Float) : String := ofBits milliseconds.toBits ++ "ms"

end EffectAudit.Elapsed
