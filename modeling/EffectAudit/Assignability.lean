import EffectAudit.CallGraph
import EffectAudit.Contribution
import EffectAudit.Violation
/-! Whether a procedure value may be put where a procedure type is expected, and whether a unit keeps
to what it declares. The categories are checked independently; a list that is absent on the expected
side constrains nothing. -/
namespace EffectAudit.Assignability

variable (h : Hierarchies) (table : EffectTable)

def bound (type : ProcType) (category : Category) : EffectSet :=
  match type.effects.declared category with
  | none => .unknown
  | some kinds => .ofKinds (h.get category) kinds

def sourceSet (source : BoundValue) (category : Category) : EffectSet :=
  match source with
  | .routine id => table.referenceSet id category
  | .proc _ type => bound h type category

def missingKinds (source : BoundValue) (target : ProcType) (category : Category) : EffectSet :=
  (sourceSet h table source category).uncoveredBy (h.get category) (bound h target category)

def forbiddenKinds (source : BoundValue) (target : ProcType) : EffectSet :=
  (sourceSet h table source .tags).coveredByAny h.tags target.effects.forbids

def isAssignable (source : BoundValue) (target : ProcType) : Bool :=
  Category.all.all (fun category => (missingKinds h table source target category).isEmpty) &&
    (forbiddenKinds h table source target).isEmpty

def checkDeclared (routine : Routine) (effects : RoutineEffects) (category : Category) :
    List Violation :=
  match routine.declared category with
  | none => []
  | some declared =>
    let hierarchy := h.get category
    let found := effects.get category
    let missing := found.inferred.uncoveredBy hierarchy found.resolved
    if missing.isEmpty then []
    else
      let kinds := missing.toKindList hierarchy
      if declared.isEmpty then [.explicitEmpty routine.id category kinds routine.span]
      else [.undeclaredEffect routine.id category kinds routine.span]

def checkForbidden (routine : Routine) (effects : RoutineEffects) : List Violation :=
  let forbidden := effects.tags.inferred.coveredByAny h.tags routine.effects.forbids
  if forbidden.isEmpty then []
  else [.forbiddenTag routine.id (forbidden.toKindList h.tags) routine.span]

def checkDeclaration (routine : Routine) : List Violation :=
  match table.get? routine.id with
  | none => []
  | some effects =>
    if effects.analyzed then
      Category.all.flatMap (checkDeclared h routine effects) ++ checkForbidden h routine effects
    else []

def bindingViolation (routine : RoutineId) (site : Site.Binding) (category : Category)
    (kinds : EffectSet) : List Violation :=
  if kinds.isEmpty then []
  else
    [.incompatibleBinding routine site.target site.value category
      (kinds.toKindList (h.get category)) site.span]

def checkBinding (routine : RoutineId) (site : Site.Binding) : List Violation :=
  Category.all.flatMap (fun category =>
    bindingViolation h routine site category
      (missingKinds h table site.value site.expected category)) ++
    bindingViolation h routine site .tags (forbiddenKinds h table site.value site.expected)

def checkProgram (program : Program) (graph : CallGraph) : List Violation :=
  program.routines.flatMap fun routine =>
    let bindings := ((graph.sites? routine.id).map (·.bindings)).getD []
    checkDeclaration h table routine ++ bindings.flatMap (checkBinding h table routine.id)

end EffectAudit.Assignability
