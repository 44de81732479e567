import EffectAudit.Format
import EffectAudit.Program
/-! Reading a program from a document. Statements and expressions are taken as data first and read
from that, so inside them the document's own format no longer matters. -/
namespace EffectAudit

namespace Decode

section Records

variable {Node : Type} (f : Format Node)

def span? (node : Node) : Option Span := do
  match ← f.record? ["start_line", "start_col", "end_line", "end_col"] node with
  | [startLine, startCol, endLine, endCol] =>
    let startLine ← Field.required f.uint32? startLine
    let startCol ← Field.required f.uint32? startCol
    let endLine ← Field.required f.uint32? endLine
    let endCol ← Field.required f.uint32? endCol
    return ⟨startLine, startCol, endLine, endCol⟩
  | _ => none

def clausesOf? (fields : List (Option Node)) : Option Clauses := do
  match fields with
  | [raises, tags, forbids] =>
    let raises ← f.optional f.texts raises
    let tags ← f.optional f.texts tags
    let forbids ← Field.withDefault [] f.texts forbids
    return ⟨raises, tags, forbids⟩
  | _ => none

def clauses? (node : Node) : Option Clauses := do
  clausesOf? f (← f.record? ["raises", "tags", "forbids"] node)

def procType? (depth : Nat) (node : Node) : Option ProcType := do
  let entries ← f.entries? [] node
  let values ← entries.mapM fun (key, value) => (f.data? (depth + 1) value).map (key, ·)
  let fields ← ["raises", "tags", "forbids"].mapM (Field.unique? values)
  let effects ← clausesOf? Data.format fields
  return ⟨effects⟩

def kindDecl? (node : Node) : Option KindDecl := do
  match ← f.record? ["name", "parent", "tracked"] node with
  | [name, parent, tracked] =>
    let name ← Field.required f.text? name
    let parent ← f.optional f.text? parent
    let tracked ← Field.withDefault true f.bool? tracked
    return ⟨name, parent, tracked⟩
  | _ => none

def paramType? (depth : Nat) (node : Node) : Option ParamType := do
  match ← f.choice? ["value", "proc"] node with
  | ("value", none) => return .value
  | ("value", some content) => if ← f.isNone? content then return .value else none
  | ("proc", some content) => (procType? f (depth + f.choiceDepth) content).map .proc
  | _ => none

def param? (depth : Nat) (node : Node) : Option Param := do
  match ← f.record? ["name", "ty"] node with
  | [name, type] =>
    let name ← Field.required f.text? name
    let type ← Field.withDefault .value (paramType? f (depth + 1)) type
    return ⟨name, type⟩
  | _ => none

def routineKind? : Node → Option RoutineKind :=
  f.oneOf [("proc", .proc), ("func", .func), ("iterator", .iterator), ("method", .method),
    ("converter", .converter)]

def origin? : Node → Option Origin :=
  f.oneOf [("defined", .defined), ("foreign", .foreign), ("imported", .imported)]

def global? (depth : Nat) (node : Node) : Option Global := do
  match ← f.record? ["name", "proc_type", "span"] node with
  | [name, type, span] =>
    let name ← Field.required f.text? name
    let type ← Field.withDefault {} (procType? f (depth + 1)) type
    let span ← Field.withDefault .zero (span? f) span
    return ⟨name, type, span⟩
  | _ => none

end Records

section Code

abbrev data : Format Data := Data.format

def exprForms : List String := ["nil", "literal", "local", "routine", "call"]

def stmtForms : List String :=
  ["expr", "let", "assign", "raise", "if", "while", "try", "block", "return", "effects_marker"]

def dataSpan? : Option Data → Option Span := Field.withDefault .zero (span? data)

mutual

def expr? : (room : Nat) → Data → Option Expr
  | 0, _ => none
  | room + 1, node => do
    let (tag, fields) ← node.untag? "expr"
    match ← tag.name? exprForms with
    | some "nil" =>
      match fields with
      | .list (_ :: _) => none
      | _ => return .nil
    | some "literal" =>
      match ← data.record? ["text"] fields with
      | [text] => return .literal (← Field.required data.text? text)
      | _ => none
    | some "local" =>
      match ← data.record? ["name"] fields with
      | [name] => return .name (← Field.required data.text? name)
      | _ => none
    | some "routine" =>
      match ← data.record? ["id"] fields with
      | [id] => return .routine (← Field.required data.text? id)
      | _ => none
    | some "call" =>
      match ← data.record? ["callee", "args", "span"] fields with
      | [callee, args, span] =>
        let callee ← Field.required (callee? room) callee
        let args ← Field.withDefault [] (data.listOf (expr? room)) args
        let span ← dataSpan? span
        return .call callee args span
      | _ => none
    | _ => none

def callee? : (room : Nat) → Data → Option Callee
  | 0, _ => none
  | room + 1, node => do
    match ← data.choice? ["routine", "binding", "computed"] node with
    | ("routine", some id) => (data.text? id).map .routine
    | ("binding", some name) => (data.text? name).map .binding
    | ("computed", some value) => (expr? room value).map .computed
    | _ => none

end

def arm? (room : Nat) (block : Data → Option (List Stmt)) (node : Data) : Option BranchArm := do
  match ← data.record? ["cond", "body"] node with
  | [cond, body] =>
    let cond ← Field.required (expr? room) cond
    let body ← Field.required block body
    return .mk cond body
  | _ => none

def handler? (block : Data → Option (List Stmt)) (node : Data) : Option Handler := do
  match ← data.record? ["kinds", "body"] node with
  | [kinds, body] =>
    let kinds ← Field.withDefault [] data.texts kinds
    let body ← Field.withDefault [] block body
    return .mk kinds body
  | _ => none

def stmtForm? (room : Nat) (block : Data → Option (List Stmt)) (form : String) (fields : Data) :
    Option Stmt := do
  match form with
  | "expr" =>
    match ← data.record? ["expr"] fields with
    | [value] => return .expr (← Field.required (expr? room) value)
    | _ => none
  | "let" =>
    match ← data.record? ["name", "proc_type", "value", "span"] fields with
    | [name, type, value, span] =>
      let name ← Field.required data.text? name
      let type ← data.optional (procType? data 0) type
      let value ← data.optional (expr? room) value
      let span ← dataSpan? span
      return .define name type value span
    | _ => none
  | "assign" =>
    match ← data.record? ["target", "value", "span"] fields with
    | [target, value, span] =>
      let target ← Field.required data.text? target
      let value ← Field.required (expr? room) value
      let span ← dataSpan? span
      return .assign target value span
    | _ => none
  | "raise" =>
    match ← data.record? ["kind", "args", "span"] fields with
    | [kind, args, span] =>
      let kind ← data.optional data.text? kind
      let args ← Field.withDefault [] (data.listOf (expr? room)) args
      let span ← dataSpan? span
      return .raise kind args span
    | _ => none
  | "if" =>
    match ← data.record? ["arms", "else_body"] fields with
    | [arms, otherwise] =>
      let arms ← Field.required (data.listOf (arm? room block)) arms
      let otherwise ← data.optional block otherwise
      return .branch arms otherwise
    | _ => none
  | "while" =>
    match ← data.record? ["cond", "body"] fields with
    | [cond, body] =>
      let cond ← Field.required (expr? room) cond
      let body ← Field.required block body
      return .loop cond body
    | _ => none
  | "try" =>
    match ← data.record? ["body", "handlers", "finally"] fields with
    | [body, handlers, cleanup] =>
      let body ← Field.required block body
      let handlers ← Field.withDefault [] (data.listOf (handler? block)) handlers
      let cleanup ← data.optional block cleanup
      return .protect body handlers cleanup
    | _ => none
  | "block" =>
    match ← data.record? ["body"] fields with
    | [body] => return .block (← Field.required block body)
    | _ => none
  | "return" =>
    match ← data.record? ["value"] fields with
    | [value] => return .exit (← data.optional (expr? room) value)
    | _ => none
  | "effects_marker" =>
    match ← data.record? ["label", "span"] fields with
    | [label, span] =>
      let label ← data.optional data.text? label
      let span ← dataSpan? span
      return .marker label span
    | _ => none
  | _ => none

def stmt? : (room : Nat) → Data → Option Stmt
  | 0, _ => none
  | room + 1, node => do
    let (tag, fields) ← node.untag? "stmt"
    let form ← ← tag.name? stmtForms
    stmtForm? room (data.listOf (stmt? room)) form fields

end Code

section Units

variable {Node : Type} (f : Format Node)

/-- An outermost statement, inside the given number of lists and mappings. Only here must the form be
given by its name. -/
def outerStmt? (depth : Nat) (node : Node) : Option Stmt := do
  let content ← f.formData? "stmt" depth node
  let (tag, fields) ← content.untag? "stmt"
  let form ← data.text? tag
  stmtForm? content.height (data.listOf (stmt? content.height)) form fields

def routine? (depth : Nat) (node : Node) : Option Routine := do
  match ← f.record? ["id", "kind", "origin", "params", "effects", "body", "span"] node with
  | [id, kind, origin, params, effects, body, span] =>
    let id ← Field.required f.text? id
    let kind ← Field.withDefault .proc (routineKind? f) kind
    let origin ← Field.withDefault .defined (origin? f) origin
    let params ← Field.withDefault [] (f.listOf (param? f (depth + 2))) params
    let effects ← Field.withDefault {} (clauses? f) effects
    let body ← f.optional (f.listOf (outerStmt? f (depth + 2))) body
    let span ← Field.withDefault .zero (span? f) span
    return { id, kind, origin, params, effects, body, span }
  | _ => none

def program? (node : Node) : Option Program := do
  match ← f.record? ["unit", "exception_kinds", "tag_kinds", "routines", "globals"] node with
  | [unit, exceptionKinds, tagKinds, routines, globals] =>
    let unit ← Field.required f.text? unit
    let exceptionKinds ← Field.withDefault [] (f.listOf (kindDecl? f)) exceptionKinds
    let tagKinds ← Field.withDefault [] (f.listOf (kindDecl? f)) tagKinds
    let routines ← Field.withDefault [] (f.listOf (routine? f 2)) routines
    let globals ← Field.withDefault [] (f.listOf (global? f 2)) globals
    return { unit, exceptionKinds, tagKinds, routines, globals }
  | _ => none

end Units
end Decode
end EffectAudit
