import EffectAudit.Format
import EffectAudit.Yaml.Node
import EffectAudit.Yaml.Scalar
/-! YAML as a document format. Outside of data, what is expected decides what a scalar stands for;
inside data, its spelling does. -/
namespace EffectAudit.Yaml

namespace Node

mutual

def toData? (node : Node) : Option Data :=
  if node.form?.isSome then none
  else
    match node with
    | scalar tag text style => Scalar.data? tag text style
    | sequence _ items => (itemsData? items).map .list
    | mapping _ entries => (entriesData? entries).map .mapping

def itemsData? : List Node → Option (List Data)
  | [] => some []
  | item :: rest => do return (← item.toData?) :: (← itemsData? rest)

def entriesData? : List (Node × Node) → Option (List (Data × Data))
  | [] => some []
  | (key, value) :: rest => do return (← key.toData?, ← value.toData?) :: (← entriesData? rest)

end

def text? : Node → Option String
  | scalar _ text _ => some text
  | _ => none

def isAbsent : Node → Bool
  | scalar _ "" .plain => true
  | _ => false

def asName : Node → Node
  | scalar _ text _ => scalar none text .quoted
  | node => node

def nameForm (key : String) : Node → Node
  | mapping tag entries => mapping tag <| entries.map fun entry =>
      if entry.1.toData?.any (·.isText key) then (entry.1, entry.2.asName) else entry
  | sequence tag (item :: items) => sequence tag (item.asName :: items)
  | node => node

end Node

def depthLimit : Nat := 128

def dataWithin? (depth : Nat) (node : Node) : Option Data := do
  let data ← node.toData?
  if data.height + depth ≤ depthLimit then return data else none

def format : Format Node where
  text? := Node.text?
  nat?
    | .scalar tag text style => if Scalar.isTyped Tag.int tag style then Scalar.unsigned? text else none
    | _ => none
  bool?
    | .scalar tag text style => if Scalar.isTyped Tag.bool tag style then Scalar.bool? text else none
    | _ => none
  isNone?
    | .scalar tag text style => Scalar.isNone? tag text style
    | _ => some false
  list?
    | .sequence _ items => some items
    | node => if node.isAbsent then some [] else none
  entries? _
    | .mapping _ entries => entries.mapM fun (key, value) => return (← key.text?, value)
    | node => if node.isAbsent then some [] else none
  positional := false
  choice? _ node :=
    match node.form? with
    | some name => some (name, some node.untagged)
    | none => node.text?.map (·, none)
  choiceDepth := 0
  data? := dataWithin?
  formData? key depth node := dataWithin? depth (node.nameForm key)

end EffectAudit.Yaml
