import EffectAudit.Text.Digit
import EffectAudit.Yaml.Token
/-! Tags are sequences of octets. A percent sign and two hexadecimal digits stand for an octet, and a
zero octet ends a tag wherever it stands. What is escaped has to have the shape of UTF-8, but need not
encode a character; a tag that is no text has no name. -/
namespace EffectAudit.Yaml

structure Tag where
  octets : List UInt8
  deriving DecidableEq, Repr

namespace Tag

def ofString (s : String) : Tag := ⟨s.toUTF8.toList⟩

def standard : String := "tag:yaml.org,2002:"

def null : Tag := ofString (standard ++ "null")

def bool : Tag := ofString (standard ++ "bool")

def int : Tag := ofString (standard ++ "int")

def float : Tag := ofString (standard ++ "float")

def mark : UInt8 := 0x21

def isLocal (t : Tag) : Bool := t.octets.head? == some mark

def name? (t : Tag) : Option String :=
  if t.isLocal then String.fromUTF8? ⟨(t.octets.drop 1).toArray⟩ else none

def isWordChar (c : Char) : Bool := c.isAlphanum || c == '-' || c == '_'

def isTagChar (c : Char) : Bool := isWordChar c || ";/?:@&=+$.!~*'()%".toList.contains c

def isVerbatimChar (c : Char) : Bool := isTagChar c || c == ',' || c == '[' || c == ']'

def following? (octet : Nat) : Option Nat :=
  if octet < 0x80 then some 0
  else if 0xC0 ≤ octet && octet < 0xE0 then some 1
  else if 0xE0 ≤ octet && octet < 0xF0 then some 2
  else if 0xF0 ≤ octet && octet < 0xF8 then some 3
  else none

def unescape? (pending : Nat) : List Char → Option (List UInt8)
  | [] => if pending == 0 then some [] else none
  | '%' :: high :: low :: rest => do
    let octet ← Text.digits? 16 [high, low]
    let pending ← match pending with
      | 0 => following? octet
      | more + 1 => if 0x80 ≤ octet && octet < 0xC0 then some more else none
    return UInt8.ofNat octet :: (← unescape? pending rest)
  | c :: rest => do
    if pending != 0 || c == '%' then none
    return UInt8.ofNat c.toNat :: (← unescape? 0 rest)

def octets? (cs : List Char) : Option (List UInt8) := (unescape? 0 cs).map (·.takeWhile (· != 0))

structure Scanned where
  handle : String
  rest : List UInt8
  size : Nat

def scan? : List Char → Option Scanned
  | '!' :: '<' :: cs => do
    let written := cs.takeWhile isVerbatimChar
    if written.isEmpty || (cs.drop written.length).head? != some '>' then none
    return ⟨"", ← octets? written, written.length + 3⟩
  | '!' :: cs => do
    let word := cs.takeWhile isWordChar
    let more := (cs.drop word.length).takeWhile isTagChar
    match more with
    | '!' :: more =>
      if more.isEmpty then none
      return ⟨String.ofList ('!' :: word ++ ['!']), ← octets? more, word.length + more.length + 2⟩
    | _ =>
      let size := word.length + more.length + 1
      match ← octets? (word ++ more) with
      | [] => return ⟨"", [mark], size⟩
      | rest => return ⟨"!", rest, size⟩
  | _ => none

end Tag
end EffectAudit.Yaml
