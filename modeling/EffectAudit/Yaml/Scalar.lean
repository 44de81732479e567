import EffectAudit.Data
import EffectAudit.Yaml.Token.Tag
/-! What a scalar stands for by its spelling, or by its tag. -/
namespace EffectAudit.Yaml.Scalar

def isNull (s : String) : Bool := ["", "~", "null", "Null", "NULL"].contains s

def bool? (s : String) : Option Bool :=
  if ["true", "True", "TRUE"].contains s then some true
  else if ["false", "False", "FALSE"].contains s then some false
  else none

def hasLeadingZero : List Char → Bool
  | '0' :: c :: rest => (c :: rest).all Char.isDigit
  | _ => false

def magnitude? : List Char → Option Nat
  | '0' :: 'x' :: rest => Text.digits? 16 rest
  | '0' :: 'o' :: rest => Text.digits? 8 rest
  | '0' :: 'b' :: rest => Text.digits? 2 rest
  | cs => if hasLeadingZero cs then none else Text.digits? 10 cs

def unsigned? (s : String) : Option Nat :=
  match s.toList with
  | '+' :: rest => magnitude? rest
  | cs => magnitude? cs

def negated? (s : String) : Option Nat :=
  match s.toList with
  | '-' :: rest => magnitude? rest
  | _ => none

def exponent? : List Char → Option Int
  | [] => some 0
  | c :: rest =>
    if c != 'e' && c != 'E' then none
    else
      match rest with
      | '-' :: digits => (Text.digits? 10 digits).map fun n => -(n : Int)
      | '+' :: digits => (Text.digits? 10 digits).map (↑·)
      | digits => (Text.digits? 10 digits).map (↑·)

def decimal? (cs : List Char) : Option Decimal := do
  let whole := cs.takeWhile Char.isDigit
  let rest := cs.dropWhile Char.isDigit
  let (fraction, rest) := match rest with
    | '.' :: rest => (rest.takeWhile Char.isDigit, rest.dropWhile Char.isDigit)
    | _ => ([], rest)
  let value ← Text.digits? 10 (whole ++ fraction)
  let exponent ← exponent? rest
  return ⟨false, value, exponent - fraction.length⟩

def withoutSign (s : String) : List Char :=
  match s.toList with
  | '+' :: rest => rest
  | '-' :: rest => rest
  | cs => cs

def isReal (s : String) : Bool :=
  let size := withoutSign s
  [".inf", ".Inf", ".INF"].contains (String.ofList size) || [".nan", ".NaN", ".NAN"].contains s ||
    (decimal? size).any Decimal.isFinite

/-- Integers up to these sizes are numbers. Larger ones are refused, up to twice as many bits; what is
larger still is a real number. -/
def resolve? (s : String) : Option Data :=
  if isNull s then some .null
  else
    match bool? s, unsigned? s, negated? s with
    | some b, _, _ => some (.bool b)
    | none, some n, _ =>
      if n < UInt64.size then some (.nat n)
      else if n < Nat.pow 2 128 then none
      else some (other s)
    | none, none, some n =>
      if n ≤ Nat.pow 2 63 then some (.signed (-(n : Int)))
      else if n ≤ Nat.pow 2 127 then none
      else some (other s)
    | none, none, none => some (other s)
where
  other (s : String) : Data :=
    if isReal s && !hasLeadingZero (withoutSign s) then .real else .text s

def integer? (s : String) : Option Data :=
  match unsigned? s, negated? s with
  | some n, _ => if n < UInt64.size then some (.nat n) else none
  | none, some n => if n ≤ Nat.pow 2 63 then some (.signed (-(n : Int))) else none
  | none, none => none

/-- The text of a scalar as data. The tag of a standard type asks for a value of that type. Without one,
only what is plain and has no tag but a local one is more than text. -/
def data? (tag : Option Tag) (s : String) (style : Style) : Option Data :=
  if tag == some Tag.null then if s != "" && isNull s then some .null else none
  else if tag == some Tag.bool then (bool? s).map .bool
  else if tag == some Tag.int then integer? s
  else if tag == some Tag.float then if isReal s then some .real else none
  else if style == .plain && tag.all Tag.isLocal then resolve? s
  else some (.text s)

def isTyped (type : Tag) (tag : Option Tag) (style : Style) : Bool :=
  style == .plain || (style == .literal && tag == some type)

def isNone? (tag : Option Tag) (s : String) (style : Style) : Option Bool :=
  match tag with
  | none => some (style == .plain && isNull s)
  | some tag =>
    if style != .plain || tag != Tag.null then some false
    else if s != "" && isNull s then some true
    else none

end EffectAudit.Yaml.Scalar
