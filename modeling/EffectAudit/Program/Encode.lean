import EffectAudit.Json
import EffectAudit.Program
/-! Programs written as JSON. Everything is written except the effect lists that are absent. -/
namespace EffectAudit

def Span.toJson (s : Span) : Json :=
  .object [("start_line", .nat s.startLine.toNat), ("start_col", .nat s.startCol.toNat),
    ("end_line", .nat s.endLine.toNat), ("end_col", .nat s.endCol.toNat)]

def Clauses.toJson (c : Clauses) : Json :=
  let listed (key : String) : Option (List Kind) → List (String × Json)
    | none => []
    | some kinds => [(key, .strings kinds)]
  .object (listed "raises" c.raises ++ listed "tags" c.tags ++
    if c.forbids.isEmpty then [] else [("forbids", .strings c.forbids)])

def ProcType.toJson (t : ProcType) : Json := t.effects.toJson

def ParamType.toJson : ParamType → Json
  | .value => .string "value"
  | .proc type => .tagged "proc" type.toJson

def Param.toJson (p : Param) : Json :=
  .object [("name", .string p.name), ("ty", p.type.toJson)]

def KindDecl.toJson (d : KindDecl) : Json :=
  .object [("name", .string d.name), ("parent", .ofOption .string d.parent),
    ("tracked", .bool d.tracked)]

def Global.toJson (g : Global) : Json :=
  .object [("name", .string g.name), ("proc_type", g.type.toJson), ("span", g.span.toJson)]

def RoutineKind.name : RoutineKind → String
  | proc => "proc"
  | func => "func"
  | iterator => "iterator"
  | method => "method"
  | converter => "converter"

def Origin.name : Origin → String
  | defined => "defined"
  | foreign => "foreign"
  | imported => "imported"

def Json.form (key name : String) (fields : List (String × Json)) : Json :=
  .object ((key, .string name) :: fields)

mutual

def Expr.toJson : Expr → Json
  | .nil => .form "expr" "nil" []
  | .literal text => .form "expr" "literal" [("text", .string text)]
  | .name name => .form "expr" "local" [("name", .string name)]
  | .routine id => .form "expr" "routine" [("id", .string id)]
  | .call callee args span =>
    .form "expr" "call" [("callee", callee.toJson), ("args", .array (exprsJson args)),
      ("span", span.toJson)]

def Callee.toJson : Callee → Json
  | .routine id => .tagged "routine" (.string id)
  | .binding name => .tagged "binding" (.string name)
  | .computed value => .tagged "computed" value.toJson

def exprsJson : List Expr → List Json
  | [] => []
  | expr :: rest => expr.toJson :: exprsJson rest

end

mutual

def Stmt.toJson : Stmt → Json
  | .expr value => .form "stmt" "expr" [("expr", value.toJson)]
  | .define name type value span =>
    .form "stmt" "let" [("name", .string name), ("proc_type", .ofOption ProcType.toJson type),
      ("value", .ofOption Expr.toJson value), ("span", span.toJson)]
  | .assign target value span =>
    .form "stmt" "assign" [("target", .string target), ("value", value.toJson), ("span", span.toJson)]
  | .raise kind args span =>
    .form "stmt" "raise" [("kind", .ofOption .string kind), ("args", .array (exprsJson args)),
      ("span", span.toJson)]
  | .branch arms otherwise =>
    .form "stmt" "if" [("arms", .array (armsJson arms)), ("else_body", blockJson? otherwise)]
  | .loop cond body =>
    .form "stmt" "while" [("cond", cond.toJson), ("body", .array (blockJson body))]
  | .protect body handlers cleanup =>
    .form "stmt" "try" [("body", .array (blockJson body)),
      ("handlers", .array (handlersJson handlers)), ("finally", blockJson? cleanup)]
  | .block body => .form "stmt" "block" [("body", .array (blockJson body))]
  | .exit value => .form "stmt" "return" [("value", .ofOption Expr.toJson value)]
  | .marker label span =>
    .form "stmt" "effects_marker" [("label", .ofOption .string label), ("span", span.toJson)]

def blockJson : List Stmt → List Json
  | [] => []
  | stmt :: rest => stmt.toJson :: blockJson rest

def blockJson? : Option (List Stmt) → Json
  | none => .null
  | some body => .array (blockJson body)

def armsJson : List BranchArm → List Json
  | [] => []
  | .mk cond body :: rest =>
    .object [("cond", cond.toJson), ("body", .array (blockJson body))] :: armsJson rest

def handlersJson : List Handler → List Json
  | [] => []
  | .mk kinds body :: rest =>
    .object [("kinds", .strings kinds), ("body", .array (blockJson body))] :: handlersJson rest

end

def Routine.toJson (r : Routine) : Json :=
  .object [("id", .string r.id), ("kind", .string r.kind.name), ("origin", .string r.origin.name),
    ("params", .ofList Param.toJson r.params), ("effects", r.effects.toJson),
    ("body", blockJson? r.body), ("span", r.span.toJson)]

def Program.toJson (p : Program) : Json :=
  .object [("unit", .string p.unit), ("exception_kinds", .ofList KindDecl.toJson p.exceptionKinds),
    ("tag_kinds", .ofList KindDecl.toJson p.tagKinds), ("routines", .ofList Routine.toJson p.routines),
    ("globals", .ofList Global.toJson p.globals)]

end EffectAudit
