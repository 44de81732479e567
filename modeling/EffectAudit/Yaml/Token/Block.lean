import EffectAudit.Yaml.Token.Scalar
/-! Block scalars: the lines below a mark that are indented further than what they belong to. In a
literal scalar line breaks are kept; in a folded one a single break between two lines of text becomes
a blank. -/
namespace EffectAudit.Yaml

inductive Chomping where
  | strip
  | clip
  | keep
  deriving DecidableEq

def Chomping.ofChar? : Char → Option Chomping
  | '-' => some .strip
  | '+' => some .keep
  | _ => none

structure BlockHeader where
  chomping : Chomping := .clip
  indent : Option Nat := none

namespace BlockHeader

def indent? (c : Char) : Option Nat := if c == '0' then none else Text.digit? 10 c

def ofMarks? : List Char → Option BlockHeader
  | [] => some {}
  | [c] =>
    match Chomping.ofChar? c with
    | some chomping => some { chomping }
    | none => (indent? c).map fun indent => { indent }
  | [c, d] =>
    match Chomping.ofChar? c with
    | some chomping => (indent? d).map fun indent => { chomping, indent }
    | none => do
      let indent ← indent? c
      let chomping ← Chomping.ofChar? d
      return { chomping, indent }
  | _ => none

def scan? (cs : List Char) : Option (BlockHeader × Nat) := do
  let line := cs.takeWhile (!isBreak ·)
  let marks := line.takeWhile fun c => c == '+' || c == '-' || c.isDigit
  let header ← ofMarks? marks
  match (line.drop marks.length).dropWhile isBlank with
  | [] => return (header, line.length)
  | c :: _ => if c == '#' then return (header, line.length) else none

end BlockHeader

structure BlockText where
  out : List Char := []
  lineBreak : List Char := []
  emptyLines : List Char := []
  indented : Bool := false

namespace BlockText

def startLine (t : BlockText) (folded : Bool) (c : Char) : BlockText :=
  let folds := folded && t.lineBreak == ['\n'] && !t.indented && !isBlank c
  let between :=
    if !folds then t.emptyLines ++ t.lineBreak
    else if t.emptyLines.isEmpty then [' ']
    else t.emptyLines
  { out := c :: between ++ t.out, indented := isBlank c }

def finish (t : BlockText) (chomping : Chomping) : String :=
  let tail := match chomping with
    | .strip => []
    | .clip => t.lineBreak
    | .keep => t.emptyLines ++ t.lineBreak
  String.ofList (tail ++ t.out).reverse

end BlockText

inductive BlockPart where
  | line
  | margin (deepest : Nat)

/-- Reads on in a block scalar. Its first line settles the indentation if nothing else does; that is
at least `least`, and zero stands for an indentation that is not settled. -/
def blockFrom (folded : Bool) (chomping : Chomping) (least indent : Nat) (part : BlockPart)
    (place : Place) (t : BlockText) : List Char → Option ScannedScalar
  | [] => some ⟨t.finish chomping, ⟨place, []⟩, true⟩
  | c :: rest =>
    match part with
    | .line =>
      if isBreak c then
        blockFrom folded chomping least indent (.margin 0) (place.after c)
          { t with lineBreak := [c], emptyLines := [] } rest
      else
        blockFrom folded chomping least indent .line (place.after c) { t with out := c :: t.out } rest
    | .margin deepest =>
      let deepest := max deepest place.column
      let shallow := indent == 0 || place.column < indent
      if shallow && c == ' ' then
        blockFrom folded chomping least indent (.margin deepest) (place.after c) t rest
      else if shallow && c == '\t' then none
      else if isBreak c then
        blockFrom folded chomping least indent (.margin deepest) (place.after c)
          { t with emptyLines := c :: t.emptyLines } rest
      else
        let indent := if indent == 0 then max deepest least else indent
        if place.column == indent then
          blockFrom folded chomping least indent .line (place.after c) (t.startLine folded c) rest
        else some ⟨t.finish chomping, ⟨place, c :: rest⟩, true⟩

end EffectAudit.Yaml
