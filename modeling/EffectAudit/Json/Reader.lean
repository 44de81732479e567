import EffectAudit.Json
import EffectAudit.Text.Digit
/-! Reading JSON text. The grammar is strict: no trailing comma, no comment, no leading zero, no raw
control character in a string, nothing but blanks around the value. Each step takes what is left of
the text and gives back a result and the new rest. -/
namespace EffectAudit.Json.Reader

abbrev Step (α : Type) := List Char → Option (α × List Char)

def isBlank (c : Char) : Bool := c = ' ' || c = '\n' || c = '\r' || c = '\t'

def skipBlanks (cs : List Char) : List Char := cs.dropWhile isBlank

def hexQuad? (a b c d : Char) : Option Nat := Text.digits? 16 [a, b, c, d]

inductive Piece where
  | char (c : Char)
  | unit (n : Nat)
  deriving DecidableEq, Repr

def simpleEscape? (c : Char) : Option Char :=
  if c = '"' || c = '\\' || c = '/' then some c
  else if c = 'b' then some (Char.ofNat 8)
  else if c = 'f' then some (Char.ofNat 12)
  else if c = 'n' then some '\n'
  else if c = 'r' then some '\r'
  else if c = 't' then some '\t'
  else none

def pieces : Step (List Piece)
  | [] => none
  | '"' :: rest => some ([], rest)
  | '\\' :: 'u' :: a :: b :: c :: d :: rest => do
    let n ← hexQuad? a b c d
    let (more, rest) ← pieces rest
    return (.unit n :: more, rest)
  | '\\' :: c :: rest => do
    let c ← simpleEscape? c
    let (more, rest) ← pieces rest
    return (.char c :: more, rest)
  | c :: rest =>
    if c.toNat < 32 || c = '\\' then none
    else do
      let (more, rest) ← pieces rest
      return (.char c :: more, rest)

def isHighSurrogate (n : Nat) : Bool := 0xD800 ≤ n && n < 0xDC00

def isLowSurrogate (n : Nat) : Bool := 0xDC00 ≤ n && n < 0xE000

def joinSurrogates (high low : Nat) : Char :=
  Char.ofNat (0x10000 + (high - 0xD800) * 0x400 + (low - 0xDC00))

def assemble : List Piece → Option (List Char)
  | [] => some []
  | .char c :: rest => (assemble rest).map (c :: ·)
  | .unit high :: .unit low :: rest =>
    if isHighSurrogate high then
      if isLowSurrogate low then (assemble rest).map (joinSurrogates high low :: ·) else none
    else if isLowSurrogate high then none
    else (assemble (.unit low :: rest)).map (Char.ofNat high :: ·)
  | .unit n :: rest =>
    if isHighSurrogate n || isLowSurrogate n then none
    else (assemble rest).map (Char.ofNat n :: ·)

def stringBody : Step (Option String) := fun cs => do
  let (parts, rest) ← pieces cs
  return ((assemble parts).map String.ofList, rest)

def digitValues (digits : List Char) : List Nat := digits.map fun c => c.toNat - '0'.toNat

def digits1 : Step (List Char) := fun cs =>
  let digits := cs.takeWhile Char.isDigit
  if digits.isEmpty then none else some (digits, cs.dropWhile Char.isDigit)

def wholePart : Step (List Char)
  | '0' :: rest => some (['0'], rest)
  | cs => digits1 cs

def fractionPart : Step (Option (List Char))
  | '.' :: rest => do
    let (digits, rest) ← digits1 rest
    return (some digits, rest)
  | cs => some (none, cs)

def exponentDigits (negative : Bool) : Step Int := fun cs => do
  let (digits, rest) ← digits1 cs
  let n : Nat := (digitValues digits).foldl (fun n d => n * 10 + d) 0
  return (if negative then -(n : Int) else n, rest)

def exponentPart : Step (Option Int)
  | e :: rest =>
    if e = 'e' || e = 'E' then do
      let (n, rest) ← match rest with
        | '+' :: rest => exponentDigits false rest
        | '-' :: rest => exponentDigits true rest
        | rest => exponentDigits false rest
      return (some n, rest)
    else some (none, e :: rest)
  | [] => some (none, [])

def number (negative : Bool) : Step Json := fun cs => do
  let (whole, rest) ← wholePart cs
  let (fraction, rest) ← fractionPart rest
  let (exponent, rest) ← exponentPart rest
  let written := Decimal.ofDigits negative (digitValues whole) (digitValues (fraction.getD []))
    (exponent.getD 0)
  let value :=
    if !negative && fraction.isNone && exponent.isNone && written.exponent == 0 then nat written.digits
    else decimal written
  return (value, rest)

def literal (word : String) (value : Json) : Step Json := fun cs =>
  if cs.take word.length = word.toList then some (value, cs.drop word.length) else none

mutual

/-- A value after leading blanks. `fuel` bounds the number of steps still to be taken; two for each
character left are enough. -/
def value : Nat → Step Json
  | 0, _ => none
  | fuel + 1, cs =>
    match skipBlanks cs with
    | '"' :: rest => (stringBody rest).map fun (text, rest) =>
        (match text with | some text => string text | none => illFormed, rest)
    | '[' :: rest =>
      match skipBlanks rest with
      | ']' :: rest => some (array [], rest)
      | _ => (items fuel rest).map fun (items, rest) => (array items, rest)
    | '{' :: rest =>
      match skipBlanks rest with
      | '}' :: rest => some (object [], rest)
      | _ => (members fuel rest).map fun (fields, rest) =>
          (match fields with | some fields => object fields | none => illFormed, rest)
    | '-' :: rest => number true rest
    | 'n' :: rest => literal "ull" null rest
    | 't' :: rest => literal "rue" (bool true) rest
    | 'f' :: rest => literal "alse" (bool false) rest
    | rest => number false rest

def items : Nat → Step (List Json)
  | 0, _ => none
  | fuel + 1, cs => do
    let (first, rest) ← value fuel cs
    match skipBlanks rest with
    | ',' :: rest =>
      let (others, rest) ← items fuel rest
      return (first :: others, rest)
    | ']' :: rest => return ([first], rest)
    | _ => none

def members : Nat → Step (Option (List (String × Json)))
  | 0, _ => none
  | fuel + 1, cs =>
    match skipBlanks cs with
    | '"' :: rest => do
      let (key, rest) ← stringBody rest
      match skipBlanks rest with
      | ':' :: rest =>
        let (first, rest) ← value fuel rest
        match skipBlanks rest with
        | ',' :: rest =>
          let (others, rest) ← members fuel rest
          let joined := do
            let key ← key
            let others ← others
            return (key, first) :: others
          return (joined, rest)
        | '}' :: rest => return (key.map fun key => [(key, first)], rest)
        | _ => none
      | _ => none
    | _ => none

end

end Reader

def parse? (text : String) : Option Json :=
  let cs := text.toList
  match Reader.value (2 * cs.length + 2) cs with
  | some (json, rest) => if (Reader.skipBlanks rest).isEmpty then some json else none
  | none => none

end EffectAudit.Json
