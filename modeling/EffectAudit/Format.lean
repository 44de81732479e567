import EffectAudit.Data
/-! What a document format offers to a reader of records. Formats differ in how they spell a choice or
an absent value; records are read the same way from all of them. -/
namespace EffectAudit

structure Format (Node : Type) where
  text? : Node → Option String
  nat? : Node → Option Nat
  bool? : Node → Option Bool
  isNone? : Node → Option Bool
  list? : Node → Option (List Node)
  entries? : List String → Node → Option (List (String × Node))
  positional : Bool
  choice? : List String → Node → Option (String × Option Node)
  choiceDepth : Nat
  data? : Nat → Node → Option Data
  formData? : String → Nat → Node → Option Data

namespace Field

variable {Node α : Type}

def unique? (entries : List (String × Node)) (key : String) : Option (Option Node) :=
  match entries.filter (·.1 == key) with
  | [] => some none
  | [entry] => some (some entry.2)
  | _ => none

def required (read : Node → Option α) (field : Option Node) : Option α := field.bind read

def withDefault (default : α) (read : Node → Option α) : Option Node → Option α
  | none => some default
  | some node => read node

end Field

namespace Format

variable {Node α : Type} (f : Format Node)

/-- The fields of a record, each present or not. A mapping may have other keys, which are ignored; a
list may end early and may not go on past the last field. -/
def record? (keys : List String) (node : Node) : Option (List (Option Node)) :=
  match f.entries? keys node with
  | some entries => keys.mapM (Field.unique? entries)
  | none =>
    match f.positional, f.list? node with
    | true, some items =>
      if items.length ≤ keys.length then some (keys.mapIdx fun i _ => items[i]?) else none
    | _, _ => none

def optional (read : Node → Option α) : Option Node → Option (Option α)
  | none => some none
  | some node => do if ← f.isNone? node then return none else return some (← read node)

def listOf (read : Node → Option α) (node : Node) : Option (List α) :=
  (f.list? node).bind (·.mapM read)

def texts (node : Node) : Option (List String) := f.listOf f.text? node

def natBelow (limit : Nat) (node : Node) : Option Nat :=
  (f.nat? node).bind fun n => if n < limit then some n else none

def uint32? (node : Node) : Option UInt32 := (f.natBelow UInt32.size node).map UInt32.ofNat

def count? (node : Node) : Option Nat := f.natBelow UInt64.size node

def oneOf (values : List (String × α)) (node : Node) : Option α := do
  let (name, content) ← f.choice? (values.map (·.1)) node
  let value ← values.lookup name
  match content with
  | none => return value
  | some content => if ← f.isNone? content then return value else none

end Format

namespace Data

def format : Format Data where
  text?
    | text value => some value
    | _ => none
  nat?
    | nat value => some value
    | signed value => if 0 ≤ value then some value.toNat else none
    | _ => none
  bool?
    | bool value => some value
    | _ => none
  isNone?
    | null => some true
    | _ => some false
  list?
    | list items => some items
    | _ => none
  entries? keys
    | mapping entries => do
      let named ← entries.mapM fun (key, value) => return (← key.name? keys).map (·, value)
      return named.filterMap id
    | _ => none
  positional := true
  choice? names
    | text name => some (name, none)
    | mapping [(key, content)] => do
      let name ← ← key.name? names
      return (name, some content)
    | _ => none
  choiceDepth := 1
  data? _ data := some data
  formData? _ _ data := some data

end Data

namespace Json

def depthLimit : Nat := 127

def dataWithin? (depth : Nat) (json : Json) : Option Data :=
  if json.height + depth ≤ depthLimit then json.toData? else none

def format : Format Json where
  text?
    | string value => some value
    | _ => none
  nat?
    | nat value => some value
    | _ => none
  bool?
    | bool value => some value
    | _ => none
  isNone?
    | null => some true
    | _ => some false
  list?
    | array items => some items
    | _ => none
  entries? _
    | object fields => some fields
    | _ => none
  positional := true
  choice? _
    | string name => some (name, none)
    | object [(name, content)] => some (name, some content)
    | _ => none
  choiceDepth := 1
  data? := dataWithin?
  formData? _ := dataWithin?

end Json
end EffectAudit
