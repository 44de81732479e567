import EffectAudit.Site
/-! The walk that turns a routine body into sites. One pre-order pass classifies calls and mentions,
records raises, markers and bindings, and follows the control flow around them. Names are looked up
flat per routine: locals hide parameters, parameters hide globals. -/
namespace EffectAudit
namespace Collect

/-- A local as the walk knows it. An untyped local that was set to a routine stands for it until it
is assigned again. -/
structure Local where
  type : Option ProcType
  origin : Option RoutineId
  deriving DecidableEq, Repr

structure Scope where
  locals : List (String × Local) := []
  nextConstruct : Nat := 0
  deriving DecidableEq, Repr

namespace Scope

def find? (s : Scope) (name : String) : Option Local := s.locals.lookup name

def bind (s : Scope) (name : String) (item : Local) : Scope :=
  { s with locals := (name, item) :: s.locals }

def reassign (s : Scope) (name : String) : Scope :=
  match s.find? name with
  | some { type := none, .. } => s.bind name ⟨none, none⟩
  | _ => s

def advance (s : Scope) : Scope := { s with nextConstruct := s.nextConstruct + 1 }

end Scope

structure Setting where
  program : Program
  hierarchies : Hierarchies
  routine : Routine

structure Place where
  context : Site.Context := {}
  caught : Coverage := .all

def checkClauses (h : Hierarchies) (effects : Clauses) (context : String) :
    Except Error Unit := do
  (effects.raises.getD []).forM (h.raises.checkKind · context)
  (effects.tags.getD []).forM (h.tags.checkKind · context)
  effects.forbids.forM (h.tags.checkKind · context)

def lookup (u : Setting) (id : RoutineId) : Except Error Routine :=
  match u.program.routine? id with
  | some routine => .ok routine
  | none => .error (.unknownRoutine id u.routine.id)

def mentionTarget (u : Setting) (s : Scope) (name : String) : Option EdgeTarget :=
  match s.find? name with
  | some { type := some type, .. } => some (.binding name type none)
  | some { type := none, origin := some id } => some (.binding name .unconstrained (some id))
  | some { type := none, origin := none } => none
  | none =>
    match u.routine.param? name with
    | some param => param.procType?.map fun _ => .param name
    | none => (u.program.global? name).map fun g => .binding name g.type none

def callTarget (u : Setting) (s : Scope) (name : String) : EdgeKind × EdgeTarget :=
  if (s.find? name).isNone && (u.routine.param? name).isSome then
    (.indirectParam, .param name)
  else
    (.indirectLocal, (mentionTarget u s name).getD (.binding name .unconstrained none))

def originOf (s : Scope) : Expr → Option RoutineId
  | .routine id => some id
  | .name name =>
    match s.find? name with
    | some { type := none, origin } => origin
    | _ => none
  | _ => none

def assignTarget (u : Setting) (s : Scope) (name : String) : Option (BindingTarget × ProcType) :=
  match s.find? name with
  | some item => item.type.map (.local name, ·)
  | none =>
    match u.routine.param? name with
    | some param => param.procType?.map (.local name, ·)
    | none => (u.program.global? name).map fun g => (.global name, g.type)

def resultName : Callee → String
  | .routine id => s!"{id}(...)"
  | .binding name => s!"{name}(...)"
  | .computed _ => "(...)(...)"

def boundValue (u : Setting) (s : Scope) : Expr → Option BoundValue
  | .routine id => some (.routine id)
  | .name name =>
    match mentionTarget u s name with
    | some (.binding _ _ (some id)) => some (.routine id)
    | some (.binding name bound none) => some (.proc name bound)
    | some (.param name) =>
      (u.routine.param? name).bind fun param => param.procType?.map (.proc name ·)
    | some (.routine id) => some (.routine id)
    | some .computed => none
    | none => none
  | .call callee _ _ => some (.proc (resultName callee) .unconstrained)
  | .nil => none
  | .literal _ => none

def bindingEvents (u : Setting) (s : Scope) (target : BindingTarget) (expected : ProcType)
    (value : Expr) (span : Span) : List Site.Event :=
  if expected.effects.isUnconstrained then []
  else
    match boundValue u s value with
    | none => []
    | some value => [.binding target expected value span]

def argumentEvents (u : Setting) (s : Scope) (callee : Routine) (args : List Expr) (span : Span) :
    List Site.Event :=
  (callee.params.zip args).flatMap fun (param, arg) =>
    match param.procType? with
    | none => []
    | some expected => bindingEvents u s (.param callee.id param.name) expected arg span

mutual

def exprEvents (u : Setting) (s : Scope) (context : Site.Context) :
    Expr → Except Error (List Site.Event)
  | .nil => .ok []
  | .literal _ => .ok []
  | .name name =>
    match mentionTarget u s name with
    | none => .ok []
    | some target => .ok [.edge .mention target context .zero]
  | .routine id => do
    let _ ← lookup u id
    return [.edge .mention (.routine id) context .zero]
  | .call callee args span => do
    let called ← calleeEvents u s context args span callee
    let passed ← exprsEvents u s context args
    return called ++ passed

def calleeEvents (u : Setting) (s : Scope) (context : Site.Context) (args : List Expr) (span : Span) :
    Callee → Except Error (List Site.Event)
  | .routine id => do
    let callee ← lookup u id
    let kind := if callee.kind.isDispatched then EdgeKind.method else .direct
    return .edge kind (.routine id) context span :: argumentEvents u s callee args span
  | .binding name =>
    let (kind, target) := callTarget u s name
    .ok [.edge kind target context span]
  | .computed value => do
    let inner ← exprEvents u s context value
    return .edge .indirectLocal .computed context span :: inner

def exprsEvents (u : Setting) (s : Scope) (context : Site.Context) :
    List Expr → Except Error (List Site.Event)
  | [] => .ok []
  | value :: rest => do
    let first ← exprEvents u s context value
    let others ← exprsEvents u s context rest
    return first ++ others

end

def optionalEvents (u : Setting) (s : Scope) (context : Site.Context) :
    Option Expr → Except Error (List Site.Event)
  | none => .ok []
  | some value => exprEvents u s context value

def defineEvents (u : Setting) (s : Scope) (context : Site.Context) (name : String)
    (type : Option ProcType) (value : Option Expr) (span : Span) :
    Except Error (Scope × List Site.Event) := do
  match type with
  | none =>
    let walked ← optionalEvents u s context value
    return (s.bind name ⟨none, value.bind (originOf s)⟩, walked)
  | some expected =>
    checkClauses u.hierarchies expected.effects u.routine.id
    let walked ← optionalEvents u s context value
    let bound := match value with
      | none => []
      | some value => bindingEvents u s (.local name) expected value span
    return (s.bind name ⟨some expected, none⟩, walked ++ bound)

def assignEvents (u : Setting) (s : Scope) (context : Site.Context) (name : String) (value : Expr)
    (span : Span) : Except Error (Scope × List Site.Event) := do
  let walked ← exprEvents u s context value
  let bound := match assignTarget u s name with
    | none => []
    | some (target, expected) => bindingEvents u s target expected value span
  return (s.reassign name, walked ++ bound)

def raiseEvents (u : Setting) (s : Scope) (place : Place) (kind : Option Kind) (args : List Expr)
    (span : Span) : Except Error (List Site.Event) := do
  let walked ← exprsEvents u s place.context args
  match kind with
  | none => return walked ++ [.raise (.again place.caught) place.context span]
  | some kind =>
    u.hierarchies.raises.checkKind kind u.routine.id
    return walked ++ [.raise (.kind kind) place.context span]

def handlerCoverages (u : Setting) : List Handler → Except Error (List Coverage)
  | [] => .ok []
  | handler :: rest => do
    handler.kinds.forM (u.hierarchies.raises.checkKind · u.routine.id)
    let others ← handlerCoverages u rest
    return Coverage.ofHandler u.hierarchies.raises handler.kinds :: others

mutual

def stmtEvents (u : Setting) (place : Place) (s : Scope) :
    Stmt → Except Error (Scope × List Site.Event)
  | .expr value => do
    let walked ← exprEvents u s place.context value
    return (s, walked)
  | .define name type value span => defineEvents u s place.context name type value span
  | .assign name value span => assignEvents u s place.context name value span
  | .raise kind args span => do
    let walked ← raiseEvents u s place kind args span
    return (s, walked)
  | .branch arms otherwise => do
    let (inner, s, walked) ← armsEvents u place s arms
    match otherwise with
    | none => return (s, walked)
    | some body =>
      let (s, others) ← blockEvents u inner s body
      return (s, walked ++ others)
  | .loop cond body => do
    let test ← exprEvents u s place.context cond
    let inside := { place with context := place.context.enter s.nextConstruct .loopBody }
    let (s, walked) ← blockEvents u inside s.advance body
    return (s, test ++ walked)
  | .protect body handlers cleanup => do
    let construct := s.nextConstruct
    let coverages ← handlerCoverages u handlers
    let inside := { place with
      context := (place.context.enter construct .tryBody).guarded construct coverages }
    let (s, protectedPart) ← blockEvents u inside s.advance body
    let (s, handled) ← handlersEvents u place construct 0 s handlers
    match cleanup with
    | none => return (s, protectedPart ++ handled)
    | some cleanup =>
      let after := { place with context := place.context.enter construct .cleanup }
      let (s, cleaned) ← blockEvents u after s cleanup
      return (s, protectedPart ++ handled ++ cleaned)
  | .block body => blockEvents u place s body
  | .exit value => do
    let walked ← optionalEvents u s place.context value
    return (s, walked)
  | .marker label span => .ok (s, [.marker label place.context span])

def blockEvents (u : Setting) (place : Place) (s : Scope) :
    List Stmt → Except Error (Scope × List Site.Event)
  | [] => .ok (s, [])
  | stmt :: rest => do
    let (s, first) ← stmtEvents u place s stmt
    let (s, others) ← blockEvents u place s rest
    return (s, first ++ others)

/-- Later arms stand in the second branch of the first one, so that a condition belongs to the paths
that evaluate it. The place where all arms are skipped comes back with the events. -/
def armsEvents (u : Setting) (place : Place) (s : Scope) :
    List BranchArm → Except Error (Place × Scope × List Site.Event)
  | [] => .ok (place, s, [])
  | .mk cond body :: rest => do
    let construct := s.nextConstruct
    let test ← exprEvents u s place.context cond
    let taken := { place with context := place.context.enter construct (.branch 0) }
    let (s, first) ← blockEvents u taken s.advance body
    let skipped := { place with context := place.context.enter construct (.branch 1) }
    let (inner, s, others) ← armsEvents u skipped s rest
    return (inner, s, test ++ first ++ others)

def handlersEvents (u : Setting) (place : Place) (construct index : Nat) (s : Scope) :
    List Handler → Except Error (Scope × List Site.Event)
  | [] => .ok (s, [])
  | .mk kinds body :: rest => do
    let inside : Place :=
      { context := place.context.enter construct (.handler index)
        caught := Coverage.ofHandler u.hierarchies.raises kinds }
    let (s, first) ← blockEvents u inside s body
    let (s, others) ← handlersEvents u place construct (index + 1) s rest
    return (s, first ++ others)

end

def routineSites (program : Program) (h : Hierarchies) (routine : Routine) :
    Except Error RoutineSites := do
  checkClauses h routine.effects routine.id
  (routine.params.filterMap (·.procType?)).forM (checkClauses h ·.effects routine.id)
  let u : Setting := ⟨program, h, routine⟩
  let (_, events) ← blockEvents u {} {} (routine.body.getD [])
  return .ofEvents routine.id events

end Collect
end EffectAudit
