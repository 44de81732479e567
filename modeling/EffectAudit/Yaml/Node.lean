import EffectAudit.Yaml.Token.Scan
/-! YAML documents as trees. A value that is not there is an empty plain scalar. -/
namespace EffectAudit.Yaml

abbrev Handles := List (String × List UInt8)

def Handles.standard : Handles := [("!", [Tag.mark]), ("!!", (Tag.ofString Tag.standard).octets)]

inductive Node where
  | scalar (tag : Option Tag) (text : String) (style : Style)
  | sequence (tag : Option Tag) (items : List Node)
  | mapping (tag : Option Tag) (entries : List (Node × Node))
  deriving Repr

namespace Node

def absent : Node := scalar none "" .plain

def tag? : Node → Option Tag
  | scalar tag .. => tag
  | sequence tag _ => tag
  | mapping tag _ => tag

def form? (node : Node) : Option String := node.tag?.bind Tag.name?

def untagged : Node → Node
  | scalar _ text style => scalar none text style
  | sequence _ items => sequence none items
  | mapping _ entries => mapping none entries

def leadingTag? (handles : Handles) : List Token → Option (Option Tag × List Token)
  | .tag handle octets :: rest => do
    let meaning ← if handle == "" then some [] else handles.lookup handle
    return (some ⟨meaning ++ octets⟩, rest)
  | tokens => some (none, tokens)

def endsValue (ends : List Token) : List Token → Bool
  | [] => true
  | token :: _ => ends.contains token

section Reading

variable (handles : Handles)

mutual

def node? : (fuel : Nat) → (block flush : Bool) → List Token → Option (Node × List Token)
  | 0, _, _, _ => none
  | fuel + 1, block, flush, tokens => do
    let (tag, tokens) ← leadingTag? handles tokens
    match tokens with
    | .scalar text style :: rest => return (.scalar tag text style, rest)
    | .flowSequenceStart :: rest => do
      let (items, rest) ← flowItems? fuel true rest
      return (.sequence tag items, rest)
    | .flowMappingStart :: rest => do
      let (entries, rest) ← flowEntries? fuel true rest
      return (.mapping tag entries, rest)
    | .blockEntry :: rest =>
      if flush then do
        let (items, rest) ← flushItems? fuel (.blockEntry :: rest)
        return (.sequence tag items, rest)
      else if tag.isSome then some (.scalar tag "" .plain, tokens)
      else none
    | .blockSequenceStart :: rest =>
      if block then do
        let (items, rest) ← blockItems? fuel rest
        return (.sequence tag items, rest)
      else if tag.isSome then some (.scalar tag "" .plain, tokens)
      else none
    | .blockMappingStart :: rest =>
      if block then do
        let (entries, rest) ← blockEntries? fuel rest
        return (.mapping tag entries, rest)
      else if tag.isSome then some (.scalar tag "" .plain, tokens)
      else none
    | _ => if tag.isSome then some (.scalar tag "" .plain, tokens) else none

def value? : (fuel : Nat) → (block flush : Bool) → (ends : List Token) → List Token →
    Option (Node × List Token)
  | 0, _, _, _, _ => none
  | fuel + 1, block, flush, ends, tokens =>
    if endsValue ends tokens then some (absent, tokens) else node? fuel block flush tokens

def blockItems? : (fuel : Nat) → List Token → Option (List Node × List Token)
  | 0, _ => none
  | fuel + 1, .blockEntry :: rest => do
    let (item, rest) ← value? fuel true false [.blockEntry, .blockEnd] rest
    let (items, rest) ← blockItems? fuel rest
    return (item :: items, rest)
  | _ + 1, .blockEnd :: rest => some ([], rest)
  | _ + 1, _ => none

def flushItems? : (fuel : Nat) → List Token → Option (List Node × List Token)
  | 0, _ => none
  | fuel + 1, .blockEntry :: rest => do
    let (item, rest) ← value? fuel true false [.blockEntry, .key, .value, .blockEnd] rest
    let (items, rest) ← flushItems? fuel rest
    return (item :: items, rest)
  | _ + 1, tokens => some ([], tokens)

def keyValue? : (fuel : Nat) → (block : Bool) → (ends : List Token) → List Token →
    Option (Node × List Token)
  | 0, _, _, _ => none
  | fuel + 1, block, ends, .value :: rest => value? fuel block block ends rest
  | _ + 1, _, _, tokens => some (absent, tokens)

def blockEntries? : (fuel : Nat) → List Token → Option (List (Node × Node) × List Token)
  | 0, _ => none
  | _ + 1, .blockEnd :: rest => some ([], rest)
  | fuel + 1, .key :: rest => do
    let (key, rest) ← value? fuel true true [.key, .value, .blockEnd] rest
    let (value, rest) ← keyValue? fuel true [.key, .value, .blockEnd] rest
    let (entries, rest) ← blockEntries? fuel rest
    return ((key, value) :: entries, rest)
  | _ + 1, _ => none

/-- Items up to the closing bracket; a key with its value is a mapping of its own. A mark for a key
that is not there takes the next token with it. -/
def flowItems? : (fuel : Nat) → (first : Bool) → List Token → Option (List Node × List Token)
  | 0, _, _ => none
  | _ + 1, _, .flowSequenceEnd :: rest => some ([], rest)
  | fuel + 1, first, tokens => do
    let tokens ← match first, tokens with
      | true, tokens => some tokens
      | false, .flowEntry :: rest => some rest
      | false, _ => none
    match tokens with
    | .flowSequenceEnd :: rest => return ([], rest)
    | .key :: rest =>
      let (key, rest) ← if endsValue [.value, .flowEntry, .flowSequenceEnd] rest then
          some (absent, rest.drop 1)
        else node? fuel false false rest
      let (value, rest) ← keyValue? fuel false [.flowEntry, .flowSequenceEnd] rest
      let (items, rest) ← flowItems? fuel false rest
      return (.mapping none [(key, value)] :: items, rest)
    | _ =>
      let (item, rest) ← node? fuel false false tokens
      let (items, rest) ← flowItems? fuel false rest
      return (item :: items, rest)

def flowEntries? : (fuel : Nat) → (first : Bool) → List Token →
    Option (List (Node × Node) × List Token)
  | 0, _, _ => none
  | _ + 1, _, .flowMappingEnd :: rest => some ([], rest)
  | fuel + 1, first, tokens => do
    let tokens ← match first, tokens with
      | true, tokens => some tokens
      | false, .flowEntry :: rest => some rest
      | false, _ => none
    match tokens with
    | .flowMappingEnd :: rest => return ([], rest)
    | .key :: rest =>
      let (key, rest) ← value? fuel false false [.value, .flowEntry, .flowMappingEnd] rest
      let (value, rest) ← keyValue? fuel false [.flowEntry, .flowMappingEnd] rest
      let (entries, rest) ← flowEntries? fuel false rest
      return ((key, value) :: entries, rest)
    | _ =>
      let (key, rest) ← node? fuel false false tokens
      let (entries, rest) ← flowEntries? fuel false rest
      return ((key, absent) :: entries, rest)

end

/-- The content of a document after its opening mark, if it has one. No call takes more than three
steps without taking a token. -/
def content? (tokens : List Token) : Option (Node × List Token) :=
  node? handles (3 * tokens.length + 3) true false tokens

end Reading

def handles? (directives : List Token) : Option Handles := do
  let versions := directives.filterMap fun
    | .version major minor => some (major, minor)
    | _ => none
  let set := directives.filterMap fun
    | .handle name meaning => some (name, meaning)
    | _ => none
  let known := versions.all fun version => version == (1, 1) || version == (1, 2)
  if versions.length ≤ 1 && known && (set.map (·.1)).Nodup then return set ++ Handles.standard
  else none

def isDirective : Token → Bool
  | .version .. | .handle .. => true
  | _ => false

def ofTokens? (tokens : List Token) : Option Node := do
  let directives := tokens.takeWhile isDirective
  let handles ← handles? directives
  let (node, rest) ← match tokens.dropWhile isDirective with
    | .documentStart :: rest =>
      if endsValue [.documentStart, .documentEnd] rest then some (absent, rest)
      else content? handles rest
    | [] => if directives.isEmpty then some (absent, []) else none
    | tokens => if directives.isEmpty then content? handles tokens else none
  if rest.all (· == .documentEnd) then return node else none

def parse? (text : String) : Option Node := (tokens? text).bind ofTokens?

end Node
end EffectAudit.Yaml
