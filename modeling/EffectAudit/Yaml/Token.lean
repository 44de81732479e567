/-! Tokens of a YAML text and the characters that matter to them. Anchors and aliases are not read. -/
namespace EffectAudit.Yaml

inductive Style where
  | plain
  | quoted
  | literal
  | folded
  deriving DecidableEq, Repr

inductive Token where
  | version (major minor : Nat)
  | handle (name : String) (meaning : List UInt8)
  | documentStart
  | documentEnd
  | blockSequenceStart
  | blockMappingStart
  | blockEnd
  | flowSequenceStart
  | flowSequenceEnd
  | flowMappingStart
  | flowMappingEnd
  | blockEntry
  | flowEntry
  | key
  | value
  | tag (handle : String) (rest : List UInt8)
  | scalar (text : String) (style : Style)
  deriving DecidableEq, Repr

def isBreak (c : Char) : Bool := c == '\n' || c.toNat == 0x2028 || c.toNat == 0x2029

def isBlank (c : Char) : Bool := c == ' ' || c == '\t'

def endsToken : List Char → Bool
  | [] => true
  | c :: _ => isBlank c || isBreak c

def isFlowMark (c : Char) : Bool := [',', '[', ']', '\x7b', '\x7d'].contains c

def isAllowed (c : Char) : Bool :=
  let n := c.toNat
  n == 0x09 || n == 0x0A || n == 0x0D || (0x20 ≤ n && n ≤ 0x7E) || n == 0x85 ||
    (0xA0 ≤ n && n ≤ 0xFFFD) || 0x10000 ≤ n

def unifyBreaks : List Char → List Char
  | [] => []
  | '\r' :: '\n' :: rest => '\n' :: unifyBreaks rest
  | c :: rest => (if c == '\r' || c.toNat == 0x85 then '\n' else c) :: unifyBreaks rest

structure Place where
  offset : Nat := 0
  line : Nat := 0
  column : Nat := 0
  deriving DecidableEq, Repr

def Place.after (p : Place) (c : Char) : Place :=
  if isBreak c then ⟨p.offset + c.utf8Size, p.line + 1, 0⟩
  else ⟨p.offset + c.utf8Size, p.line, p.column + 1⟩

structure Cursor where
  place : Place
  rest : List Char
  deriving Repr

def Cursor.skip (c : Cursor) (count : Nat) : Cursor :=
  ⟨(c.rest.take count).foldl Place.after c.place, c.rest.drop count⟩

def documentMark? (place : Place) (text : List Char) : Option Token :=
  if place.column != 0 || !endsToken (text.drop 3) then none
  else if text.take 3 == ['-', '-', '-'] then some .documentStart
  else if text.take 3 == ['.', '.', '.'] then some .documentEnd
  else none

end EffectAudit.Yaml
