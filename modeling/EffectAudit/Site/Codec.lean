import EffectAudit.EffectSet.Codec
import EffectAudit.Program.Decode
import EffectAudit.Program.Encode
import EffectAudit.Site
/-! Sites as JSON. -/
namespace EffectAudit

namespace Arm

def toJson : Arm → Json
  | branch index => .tagged "branch" (.nat index)
  | loopBody => .string "loop_body"
  | tryBody => .string "try_body"
  | handler index => .tagged "handler" (.nat index)
  | cleanup => .string "finally"

def ofJson? (json : Json) : Option Arm := do
  match ← Json.format.choice? ["branch", "loop_body", "try_body", "handler", "finally"] json with
  | ("branch", some index) => (Json.format.count? index).map branch
  | ("handler", some index) => (Json.format.count? index).map handler
  | _ =>
    Json.format.oneOf [("loop_body", loopBody), ("try_body", tryBody), ("finally", cleanup)] json

end Arm

def EdgeKind.names : List (String × EdgeKind) :=
  [("direct", .direct), ("method", .method), ("indirect_param", .indirectParam),
    ("indirect_local", .indirectLocal), ("mention", .mention)]

def EdgeKind.name : EdgeKind → String
  | direct => "direct"
  | method => "method"
  | indirectParam => "indirect_param"
  | indirectLocal => "indirect_local"
  | mention => "mention"

def EdgeTarget.toJson : EdgeTarget → Json
  | routine id => .tagged "routine" (.string id)
  | param name => .tagged "param" (.string name)
  | binding name bound origin =>
    .tagged "binding" (.object [("name", .string name), ("bound", bound.toJson),
      ("alias", .ofOption .string origin)])
  | computed => .string "computed"

def Raised.toJson : Raised → Json
  | .kind name => .tagged "kind" (.string name)
  | .again coverage => .tagged "reraise" coverage.toJson

def BindingTarget.toJson : BindingTarget → Json
  | .local name => .tagged "local" (.string name)
  | .global name => .tagged "global" (.string name)
  | .param callee name =>
    .tagged "param" (.object [("callee", .string callee), ("param", .string name)])

def BoundValue.toJson : BoundValue → Json
  | routine id => .tagged "routine" (.string id)
  | proc name type => .tagged "proc" (.object [("name", .string name), ("ty", type.toJson)])

namespace Site

def Context.toJson (c : Context) : Json :=
  .object [
    ("arms", .ofList (fun ref => .object [("construct", .nat ref.construct), ("arm", ref.arm.toJson)])
      c.arms),
    ("guards", .ofList (fun guard =>
      .object [("construct", .nat guard.construct), ("coverage", guard.coverage.toJson)]) c.guards)]

def Edge.toJson (e : Edge) : Json :=
  .object [("ordinal", .nat e.ordinal), ("kind", .string e.kind.name), ("target", e.target.toJson),
    ("context", e.context.toJson), ("span", e.span.toJson)]

def Raise.toJson (r : Raise) : Json :=
  .object [("ordinal", .nat r.ordinal), ("raised", r.raised.toJson), ("context", r.context.toJson),
    ("span", r.span.toJson)]

def Marker.toJson (m : Marker) : Json :=
  .object [("ordinal", .nat m.ordinal), ("index", .nat m.index), ("label", .ofOption .string m.label),
    ("context", m.context.toJson), ("span", m.span.toJson)]

def Binding.toJson (b : Binding) : Json :=
  .object [("ordinal", .nat b.ordinal), ("target", b.target.toJson),
    ("expected", b.expected.toJson), ("value", b.value.toJson), ("span", b.span.toJson)]

end Site

def RoutineSites.toJson (s : RoutineSites) : Json :=
  .object [("routine", .string s.routine), ("edges", .ofList Site.Edge.toJson s.edges),
    ("raises", .ofList Site.Raise.toJson s.raises), ("markers", .ofList Site.Marker.toJson s.markers),
    ("bindings", .ofList Site.Binding.toJson s.bindings)]

namespace Decode

def jsonProcType? : Json → Option ProcType := procType? Json.format 0

def edgeTarget? (json : Json) : Option EdgeTarget := do
  match ← Json.format.choice? ["routine", "param", "binding", "computed"] json with
  | ("routine", some id) => (Json.format.text? id).map .routine
  | ("param", some name) => (Json.format.text? name).map .param
  | ("binding", some content) =>
    match ← Json.format.record? ["name", "bound", "alias"] content with
    | [name, bound, origin] =>
      let name ← Field.required Json.format.text? name
      let bound ← Field.required jsonProcType? bound
      let origin ← Json.format.optional Json.format.text? origin
      return .binding name bound origin
    | _ => none
  | _ => Json.format.oneOf [("computed", .computed)] json

def raised? (json : Json) : Option Raised := do
  match ← Json.format.choice? ["kind", "reraise"] json with
  | ("kind", some kind) => (Json.format.text? kind).map .kind
  | ("reraise", some coverage) => (Coverage.ofJson? coverage).map .again
  | _ => none

def bindingTarget? (json : Json) : Option BindingTarget := do
  match ← Json.format.choice? ["local", "global", "param"] json with
  | ("local", some name) => (Json.format.text? name).map .local
  | ("global", some name) => (Json.format.text? name).map .global
  | ("param", some content) =>
    match ← Json.format.record? ["callee", "param"] content with
    | [callee, name] =>
      let callee ← Field.required Json.format.text? callee
      let name ← Field.required Json.format.text? name
      return .param callee name
    | _ => none
  | _ => none

def boundValue? (json : Json) : Option BoundValue := do
  match ← Json.format.choice? ["routine", "proc"] json with
  | ("routine", some id) => (Json.format.text? id).map .routine
  | ("proc", some content) =>
    match ← Json.format.record? ["name", "ty"] content with
    | [name, type] =>
      let name ← Field.required Json.format.text? name
      let type ← Field.required jsonProcType? type
      return .proc name type
    | _ => none
  | _ => none

def armRef? (json : Json) : Option ArmRef := do
  match ← Json.format.record? ["construct", "arm"] json with
  | [construct, arm] =>
    let construct ← Field.required Json.format.count? construct
    let arm ← Field.required Arm.ofJson? arm
    return ⟨construct, arm⟩
  | _ => none

def guard? (json : Json) : Option Guard := do
  match ← Json.format.record? ["construct", "coverage"] json with
  | [construct, coverage] =>
    let construct ← Field.required Json.format.count? construct
    let coverage ← Field.required Coverage.ofJson? coverage
    return ⟨construct, coverage⟩
  | _ => none

def context? (json : Json) : Option Site.Context := do
  match ← Json.format.record? ["arms", "guards"] json with
  | [arms, guards] =>
    let arms ← Field.required (Json.format.listOf armRef?) arms
    let guards ← Field.required (Json.format.listOf guard?) guards
    return ⟨arms, guards⟩
  | _ => none

def edge? (json : Json) : Option Site.Edge := do
  match ← Json.format.record? ["ordinal", "kind", "target", "context", "span"] json with
  | [ordinal, kind, target, context, span] =>
    let ordinal ← Field.required Json.format.count? ordinal
    let kind ← Field.required (Json.format.oneOf EdgeKind.names) kind
    let target ← Field.required edgeTarget? target
    let context ← Field.required context? context
    let span ← Field.required (span? Json.format) span
    return ⟨ordinal, kind, target, context, span⟩
  | _ => none

def raise? (json : Json) : Option Site.Raise := do
  match ← Json.format.record? ["ordinal", "raised", "context", "span"] json with
  | [ordinal, raised, context, span] =>
    let ordinal ← Field.required Json.format.count? ordinal
    let raised ← Field.required raised? raised
    let context ← Field.required context? context
    let span ← Field.required (span? Json.format) span
    return ⟨ordinal, raised, context, span⟩
  | _ => none

def marker? (json : Json) : Option Site.Marker := do
  match ← Json.format.record? ["ordinal", "index", "label", "context", "span"] json with
  | [ordinal, index, label, context, span] =>
    let ordinal ← Field.required Json.format.count? ordinal
    let index ← Field.required Json.format.count? index
    let label ← Json.format.optional Json.format.text? label
    let context ← Field.required context? context
    let span ← Field.required (span? Json.format) span
    return ⟨ordinal, index, label, context, span⟩
  | _ => none

def binding? (json : Json) : Option Site.Binding := do
  match ← Json.format.record? ["ordinal", "target", "expected", "value", "span"] json with
  | [ordinal, target, expected, value, span] =>
    let ordinal ← Field.required Json.format.count? ordinal
    let target ← Field.required bindingTarget? target
    let expected ← Field.required jsonProcType? expected
    let value ← Field.required boundValue? value
    let span ← Field.required (span? Json.format) span
    return ⟨ordinal, target, expected, value, span⟩
  | _ => none

def routineSites? (json : Json) : Option RoutineSites := do
  match ← Json.format.record? ["routine", "edges", "raises", "markers", "bindings"] json with
  | [routine, edges, raises, markers, bindings] =>
    let routine ← Field.required Json.format.text? routine
    let edges ← Field.required (Json.format.listOf edge?) edges
    let raises ← Field.required (Json.format.listOf raise?) raises
    let markers ← Field.required (Json.format.listOf marker?) markers
    let bindings ← Field.required (Json.format.listOf binding?) bindings
    return ⟨routine, edges, raises, markers, bindings⟩
  | _ => none

end Decode
end EffectAudit
