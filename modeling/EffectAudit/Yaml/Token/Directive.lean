import EffectAudit.Yaml.Token.Tag
/-! Directives: lines that begin with a percent sign and say how to read the document after them. -/
namespace EffectAudit.Yaml.Directive

def skipBlanks (cs : List Char) : List Char := cs.dropWhile isBlank

def endsLine (cs : List Char) : Bool :=
  match skipBlanks cs with
  | [] => true
  | c :: _ => c == '#'

def number? (cs : List Char) : Option (Nat × List Char) := do
  let digits := cs.takeWhile Char.isDigit
  if digits.length > 9 then none
  return (← Text.digits? 10 digits, cs.drop digits.length)

def version? (cs : List Char) : Option Token := do
  let (major, cs) ← number? cs
  match cs with
  | '.' :: cs =>
    let (minor, cs) ← number? cs
    if endsLine cs then return .version major minor else none
  | _ => none

def handle? (cs : List Char) : Option Token := do
  let name ← match cs with
    | '!' :: cs =>
      let word := cs.takeWhile Tag.isWordChar
      match cs.drop word.length with
      | '!' :: _ => some ('!' :: word ++ ['!'])
      | _ => if word.isEmpty then some ['!'] else none
    | _ => none
  let cs := cs.drop name.length
  if !cs.head?.any isBlank then none
  let cs := skipBlanks cs
  let written := cs.takeWhile Tag.isVerbatimChar
  let cs := cs.drop written.length
  if written.isEmpty || !endsToken cs || !endsLine cs then none
  return .handle (String.ofList name) (← Tag.octets? written)

def scan? (line : List Char) : Option Token :=
  let name := line.takeWhile Tag.isWordChar
  let cs := line.drop name.length
  if !endsToken cs then none
  else if name == "YAML".toList then version? (skipBlanks cs)
  else if name == "TAG".toList then handle? (skipBlanks cs)
  else none

end EffectAudit.Yaml.Directive
