import EffectAudit.Text.Digit
import EffectAudit.Yaml.Token
/-! Plain and quoted scalars. Blanks between words are kept, a single line break between words becomes
a blank, and of several breaks the first is dropped. -/
namespace EffectAudit.Yaml

structure Gap where
  blanks : List Char := []
  firstBreak : Option (List Char) := none
  moreBreaks : List Char := []

namespace Gap

def isEmpty (g : Gap) : Bool := g.blanks.isEmpty && g.firstBreak.isNone

def addBlank (g : Gap) (c : Char) : Gap :=
  if g.firstBreak.isSome then g else { g with blanks := c :: g.blanks }

def addBreak (g : Gap) (c : Char) : Gap :=
  match g.firstBreak with
  | none => { firstBreak := some [c] }
  | some _ => { g with moreBreaks := c :: g.moreBreaks }

def folded (g : Gap) : List Char :=
  match g.firstBreak with
  | none => g.blanks
  | some ['\n'] => if g.moreBreaks.isEmpty then [' '] else g.moreBreaks
  | some first => g.moreBreaks ++ first

end Gap

structure ScannedScalar where
  text : String
  cursor : Cursor
  brokeLine : Bool

def endsAfterGap (inFlow : Bool) (indent : Int) (place : Place) (c : Char) (rest : List Char) : Bool :=
  (!inFlow && (place.column : Int) < indent) || c == '#' || (documentMark? place (c :: rest)).isSome

def endsPlain (inFlow : Bool) (c : Char) (rest : List Char) : Bool :=
  (c == ':' && endsToken rest) || (inFlow && isFlowMark c)

def plainFrom (inFlow : Bool) (indent : Int) (place : Place) (gap : Gap) (out : List Char) :
    List Char → Option ScannedScalar
  | [] => some ⟨String.ofList out.reverse, ⟨place, []⟩, gap.firstBreak.isSome⟩
  | c :: rest =>
    if isBlank c then
      if gap.firstBreak.isSome && (place.column : Int) < indent && c == '\t' then none
      else plainFrom inFlow indent (place.after c) (gap.addBlank c) out rest
    else if isBreak c then plainFrom inFlow indent (place.after c) (gap.addBreak c) out rest
    else
      let atGap := !gap.isEmpty && endsAfterGap inFlow indent place c rest
      if !atGap && inFlow && c == ':' && rest.head?.any (fun d => isFlowMark d || d == '?') then none
      else if atGap || endsPlain inFlow c rest then
        some ⟨String.ofList out.reverse, ⟨place, c :: rest⟩, gap.firstBreak.isSome⟩
      else plainFrom inFlow indent (place.after c) {} (c :: gap.folded ++ out) rest

inductive Quote where
  | single
  | double
  deriving DecidableEq

def Quote.mark : Quote → Char
  | single => '\''
  | double => '"'

inductive Quoted where
  | text
  | mark
  | escape
  | hex (more value : Nat)

def simpleEscapes : List (Char × Nat) :=
  [('0', 0x00), ('a', 0x07), ('b', 0x08), ('t', 0x09), ('\t', 0x09), ('n', 0x0A), ('v', 0x0B),
    ('f', 0x0C), ('r', 0x0D), ('e', 0x1B), (' ', 0x20), ('"', 0x22), ('/', 0x2F), ('\\', 0x5C),
    ('N', 0x85), ('_', 0xA0), ('L', 0x2028), ('P', 0x2029)]

def numericEscapes : List (Char × Nat) := [('x', 2), ('u', 4), ('U', 8)]

def charOf? (n : Nat) : Option Char := if n.isValidChar then some (Char.ofNat n) else none

def quotedFrom (quote : Quote) (mode : Quoted) (place : Place) (gap : Gap) (out : List Char) :
    List Char → Option ScannedScalar
  | [] =>
    match mode with
    | .mark => some ⟨String.ofList out.reverse, ⟨place, []⟩, false⟩
    | _ => none
  | c :: rest =>
    let proceed mode gap out := quotedFrom quote mode (place.after c) gap out rest
    match mode with
    | .mark =>
      if c == quote.mark then proceed .text {} (c :: out)
      else some ⟨String.ofList out.reverse, ⟨place, c :: rest⟩, false⟩
    | .escape =>
      if isBreak c then proceed .text { firstBreak := some [] } out
      else
        match simpleEscapes.lookup c, numericEscapes.lookup c with
        | some n, _ => proceed .text {} (Char.ofNat n :: out)
        | none, some (more + 1) => proceed (.hex more 0) {} out
        | none, _ => none
    | .hex more value => do
      let value := value * 16 + (← Text.digit? 16 c)
      match more with
      | more + 1 => proceed (.hex more value) {} out
      | 0 => proceed .text {} ((← charOf? value) :: out)
    | .text =>
      if isBlank c then proceed .text (gap.addBlank c) out
      else if isBreak c then proceed .text (gap.addBreak c) out
      else if (documentMark? place (c :: rest)).isSome then none
      else
        let out := gap.folded ++ out
        if c == quote.mark then
          match quote with
          | .single => proceed .mark {} out
          | .double => some ⟨String.ofList out.reverse, ⟨place.after c, rest⟩, false⟩
        else if quote == .double && c == '\\' then proceed .escape {} out
        else proceed .text {} (c :: out)

end EffectAudit.Yaml
