import EffectAudit.Yaml.Token.Block
import EffectAudit.Yaml.Token.Directive
/-! From characters to tokens. Indentation becomes start and end tokens. Whether something is a key
shows only at the colon after it, so the place of a possible key is remembered and its token is put
in afterwards. -/
namespace EffectAudit.Yaml

structure PossibleKey where
  position : Nat
  place : Place
  required : Bool

structure Scan where
  cursor : Cursor
  tokens : List Token := []
  count : Nat := 0
  indent : Int := -1
  outer : List Int := []
  /-- The possible key of each open flow collection, innermost first, and of the block around them. -/
  keys : List (Option PossibleKey) := [none]
  keyAllowed : Bool := true

namespace Scan

def keyReach : Nat := 1024

def inFlow (s : Scan) : Bool :=
  match s.keys with
  | _ :: _ :: _ => true
  | _ => false

def column (s : Scan) : Int := s.cursor.place.column

def push (s : Scan) (token : Token) : Scan :=
  { s with tokens := token :: s.tokens, count := s.count + 1 }

def splice (s : Scan) (position : Nat) (token : Token) : Scan :=
  let later := s.count - position
  { s with tokens := s.tokens.take later ++ token :: s.tokens.drop later, count := s.count + 1 }

def skip (s : Scan) (count : Nat) : Scan := { s with cursor := s.cursor.skip count }

def allowKey (s : Scan) (allowed : Bool) : Scan := { s with keyAllowed := allowed }

def blanksFrom (inFlow : Bool) (keyAllowed comment : Bool) (place : Place) :
    List Char → Cursor × Bool
  | [] => (⟨place, []⟩, keyAllowed)
  | c :: rest =>
    if isBreak c then blanksFrom inFlow (keyAllowed || !inFlow) false (place.after c) rest
    else if comment || c == ' ' || (c == '\t' && (inFlow || !keyAllowed)) ||
        (c.toNat == 0xFEFF && place.column == 0) then
      blanksFrom inFlow keyAllowed comment (place.after c) rest
    else if c == '#' then blanksFrom inFlow keyAllowed true (place.after c) rest
    else (⟨place, c :: rest⟩, keyAllowed)

def skipBlanks (s : Scan) : Scan :=
  let (cursor, keyAllowed) := blanksFrom s.inFlow s.keyAllowed false s.cursor.place s.cursor.rest
  { s with cursor, keyAllowed }

def dropKey? (key : Option PossibleKey) : Option (Option PossibleKey) :=
  if key.any (·.required) then none else some none

def isStale (place : Place) (key : Option PossibleKey) : Bool :=
  key.any fun k => k.place.line < place.line || k.place.offset + keyReach < place.offset

def dropStaleKeys (s : Scan) : Option Scan := do
  let place := s.cursor.place
  if !s.keys.any (isStale place) then return s
  let keys ← s.keys.mapM fun key => if isStale place key then dropKey? key else some key
  return { s with keys }

def clearKey (s : Scan) : Option Scan :=
  match s.keys with
  | key :: rest => (dropKey? key).map fun key => { s with keys := key :: rest }
  | [] => none

def saveKey (s : Scan) : Option Scan :=
  if s.keyAllowed then do
    let s ← s.clearKey
    let required := !s.inFlow && s.indent == s.column
    let key := some ⟨s.count, s.cursor.place, required⟩
    return { s with keys := key :: s.keys.drop 1 }
  else some s

def dedent (column indent : Int) : List Int → Nat × Int × List Int
  | [] => (0, indent, [])
  | next :: outer =>
    if column < indent then
      let (closed, indent, outer) := dedent column next outer
      (closed + 1, indent, outer)
    else (0, indent, next :: outer)

def unroll (s : Scan) (column : Int) : Scan :=
  if s.inFlow then s
  else
    let (closed, indent, outer) := dedent column s.indent s.outer
    { s with
      tokens := List.replicate closed .blockEnd ++ s.tokens
      count := s.count + closed
      indent
      outer }

def roll (s : Scan) (column : Int) (position : Nat) (start : Token) : Scan :=
  if s.inFlow || column ≤ s.indent then s
  else { s.splice position start with indent := column, outer := s.indent :: s.outer }

def documentMark (s : Scan) (token : Token) : Option Scan := do
  let s ← (s.unroll (-1)).clearKey
  return ((s.allowKey false).skip 3).push token

def flowStart (s : Scan) (token : Token) : Option Scan := do
  let s ← s.saveKey
  return (({ s with keys := none :: s.keys }.allowKey true).skip 1).push token

def flowEnd (s : Scan) (token : Token) : Option Scan := do
  let s ← s.clearKey
  let keys := if s.inFlow then s.keys.drop 1 else s.keys
  return (({ s with keys }.allowKey false).skip 1).push token

def flowEntry (s : Scan) : Option Scan := do
  let s ← s.clearKey
  return ((s.allowKey true).skip 1).push .flowEntry

def blockEntry (s : Scan) : Option Scan := do
  if !s.inFlow && !s.keyAllowed then none
  let s ← (s.roll s.column s.count .blockSequenceStart).clearKey
  return ((s.allowKey true).skip 1).push .blockEntry

def valueMark (s : Scan) : Option Scan :=
  match s.keys with
  | some key :: rest =>
    let s := (s.splice key.position .key).roll key.place.column key.position .blockMappingStart
    some ((({ s with keys := none :: rest }.allowKey false).skip 1).push .value)
  | _ =>
    if !s.inFlow && !s.keyAllowed then none
    else
      let s := s.roll s.column s.count .blockMappingStart
      some (((s.allowKey (!s.inFlow)).skip 1).push .value)

def keyMark (s : Scan) : Option Scan := do
  if !s.inFlow && !s.keyAllowed then none
  let s ← (s.roll s.column s.count .blockMappingStart).clearKey
  return ((s.allowKey (!s.inFlow)).skip 1).push .key

def tag (s : Scan) : Option Scan := do
  let s ← s.saveKey
  let scanned ← Tag.scan? s.cursor.rest
  let s := ((s.allowKey false).skip scanned.size).push (.tag scanned.handle scanned.rest)
  if endsToken s.cursor.rest || (s.inFlow && s.cursor.rest.head? == some ',') then return s else none

def directive (s : Scan) : Option Scan := do
  let s ← (s.unroll (-1)).clearKey
  let line := s.cursor.rest.takeWhile (!isBreak ·)
  let token ← Directive.scan? (line.drop 1)
  return ((s.allowKey false).skip (line.length + 1)).push token

def blockScalar (s : Scan) (folded : Bool) : Option Scan := do
  let s ← s.clearKey
  let (header, size) ← BlockHeader.scan? (s.cursor.rest.drop 1)
  let opened := s.cursor.skip (size + 2)
  let indent := (header.indent.map (· + s.indent.toNat)).getD 0
  let scanned ← blockFrom folded header.chomping (max 1 (s.indent + 1).toNat) indent (.margin 0)
    opened.place {} opened.rest
  let style := if folded then Style.folded else .literal
  return { s with cursor := scanned.cursor, keyAllowed := true }.push (.scalar scanned.text style)

def quotedScalar (s : Scan) (quote : Quote) : Option Scan := do
  let s ← s.saveKey
  let opened := s.cursor.skip 1
  let scanned ← quotedFrom quote .text opened.place {} [] opened.rest
  return { s with cursor := scanned.cursor, keyAllowed := false }.push (.scalar scanned.text .quoted)

def plainScalar (s : Scan) : Option Scan := do
  let s ← s.saveKey
  let scanned ← plainFrom s.inFlow (s.indent + 1) s.cursor.place {} [] s.cursor.rest
  return { s with cursor := scanned.cursor, keyAllowed := scanned.brokeLine }.push
    (.scalar scanned.text .plain)

def beginsPlain (inFlow : Bool) (c : Char) (rest : List Char) : Bool :=
  if c == '-' then !rest.head?.any isBlank
  else if c == '?' || c == ':' then !inFlow && !endsToken rest
  else !isFlowMark c && !"#&*!|>'\"%@\x60".toList.contains c && !isBlank c

def token (s : Scan) : Option Scan :=
  match s.cursor.rest with
  | [] => none
  | c :: rest =>
    match documentMark? s.cursor.place (c :: rest) with
    | some mark => s.documentMark mark
    | none =>
      if c == '%' && s.cursor.place.column == 0 then s.directive
      else if c == '[' then s.flowStart .flowSequenceStart
      else if c == '\x7b' then s.flowStart .flowMappingStart
      else if c == ']' then s.flowEnd .flowSequenceEnd
      else if c == '\x7d' then s.flowEnd .flowMappingEnd
      else if c == ',' then s.flowEntry
      else if c == '-' && endsToken rest then s.blockEntry
      else if c == '?' && (s.inFlow || endsToken rest) then s.keyMark
      else if c == ':' && (s.inFlow || endsToken rest) then s.valueMark
      else if c == '!' then s.tag
      else if c == '|' && !s.inFlow then s.blockScalar false
      else if c == '>' && !s.inFlow then s.blockScalar true
      else if c == '\'' then s.quotedScalar .single
      else if c == '"' then s.quotedScalar .double
      else if beginsPlain s.inFlow c rest then s.plainScalar
      else none

def finish (s : Scan) : Option (List Token) := do
  let s ← (s.unroll (-1)).clearKey
  return s.tokens.reverse

def run : (fuel : Nat) → Scan → Option (List Token)
  | 0, _ => none
  | fuel + 1, s => do
    let s ← s.skipBlanks.dropStaleKeys
    let s := s.unroll s.column
    if s.cursor.rest.isEmpty then s.finish else run fuel (← s.token)

end Scan

def tokens? (text : String) : Option (List Token) :=
  let chars := text.toList
  if chars.all isAllowed then
    let chars := unifyBreaks chars
    Scan.run (chars.length + 1) { cursor := ⟨{}, chars⟩ }
  else none

end EffectAudit.Yaml
