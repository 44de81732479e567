import EffectAudit.Proofs.Site.Walk
/-! The walk over a body asks its unit only for globals and routines by name, and of a routine it reads
no more than the signature. Of the hierarchies it reads which kind is the root, and whether the kinds
in the body are legal. A walk that succeeds in one unit gives the same events in any other that answers
these questions alike and forbids no kind that the first one allows. -/
namespace EffectAudit

mutual

def Expr.references : Expr → List RoutineId
  | .nil => []
  | .literal _ => []
  | .name _ => []
  | .routine id => [id]
  | .call callee args _ => callee.references ++ Expr.allReferences args

def Callee.references : Callee → List RoutineId
  | .routine id => [id]
  | .binding _ => []
  | .computed value => value.references

def Expr.allReferences : List Expr → List RoutineId
  | [] => []
  | value :: rest => value.references ++ Expr.allReferences rest

end

def Expr.optionalReferences : Option Expr → List RoutineId
  | none => []
  | some value => value.references

mutual

def Stmt.references : Stmt → List RoutineId
  | .expr value => value.references
  | .define _ _ value _ => Expr.optionalReferences value
  | .assign _ value _ => value.references
  | .raise _ args _ => Expr.allReferences args
  | .branch arms otherwise => BranchArm.allReferences arms ++ Stmt.optionalReferences otherwise
  | .loop cond body => cond.references ++ Stmt.allReferences body
  | .protect body handlers cleanup =>
    Stmt.allReferences body ++ Handler.allReferences handlers ++ Stmt.optionalReferences cleanup
  | .block body => Stmt.allReferences body
  | .exit value => Expr.optionalReferences value
  | .marker _ _ => []

def Stmt.allReferences : List Stmt → List RoutineId
  | [] => []
  | stmt :: rest => stmt.references ++ Stmt.allReferences rest

def Stmt.optionalReferences : Option (List Stmt) → List RoutineId
  | none => []
  | some body => Stmt.allReferences body

def BranchArm.allReferences : List BranchArm → List RoutineId
  | [] => []
  | .mk cond body :: rest =>
    cond.references ++ Stmt.allReferences body ++ BranchArm.allReferences rest

def Handler.allReferences : List Handler → List RoutineId
  | [] => []
  | .mk _ body :: rest => Stmt.allReferences body ++ Handler.allReferences rest

end

def Piece.references : Piece → List RoutineId
  | .stmt code => code.references
  | .block body => Stmt.allReferences body
  | .optional body => Stmt.optionalReferences body
  | .arms chain otherwise => BranchArm.allReferences chain ++ Stmt.optionalReferences otherwise
  | .handlers _ _ list => Handler.allReferences list

def Routine.references (r : Routine) : List RoutineId := Stmt.allReferences (r.body.getD [])

def Use.references : Use → List RoutineId
  | .routine id => [id]
  | .call id _ _ => [id]
  | _ => []

mutual

theorem Expr.usesReferences (value : Expr) : value.uses.flatMap Use.references = value.references := by
  cases value with
  | call callee args span =>
    rw [Expr.uses, Expr.references, List.flatMap_append, Callee.usesReferences callee args span,
      Expr.allUsesReferences args]
  | nil => rfl
  | literal text => rfl
  | name name => rfl
  | routine id => rfl

theorem Callee.usesReferences (callee : Callee) (args : List Expr) (span : Span) :
    (callee.uses args span).flatMap Use.references = callee.references := by
  cases callee with
  | computed value =>
    rw [Callee.uses, Callee.references, List.flatMap_cons, Expr.usesReferences value]
    rfl
  | routine id => rfl
  | binding name => rfl

theorem Expr.allUsesReferences (values : List Expr) :
    (Expr.allUses values).flatMap Use.references = Expr.allReferences values := by
  cases values with
  | nil => rfl
  | cons value rest =>
    rw [Expr.allUses, Expr.allReferences, List.flatMap_append, Expr.usesReferences value,
      Expr.allUsesReferences rest]

end

theorem Stmt.usesReferences {code : Stmt} (simple : code.isPlain = true) :
    code.uses.flatMap Use.references = code.references := by
  have optional (value : Option Expr) :
      (Expr.optionalUses value).flatMap Use.references = Expr.optionalReferences value := by
    cases value with
    | none => rfl
    | some value => exact Expr.usesReferences value
  cases code, simple using Stmt.plainCases with
  | expr value => exact Expr.usesReferences value
  | define name type value span => exact optional value
  | assign name value span => exact Expr.usesReferences value
  | raise kind args span => exact Expr.allUsesReferences args
  | exit value => exact optional value
  | marker label span => rfl

def Clauses.mentions (c : Clauses) : List (Category × Kind) :=
  (c.raises.getD []).map (Prod.mk .raises) ++ (c.tags.getD []).map (Prod.mk .tags) ++
    c.forbids.map (Prod.mk .tags)

def ProcType.optionalMentions : Option ProcType → List (Category × Kind)
  | none => []
  | some type => type.effects.mentions

def Handler.listed (handlers : List Handler) : List (Category × Kind) :=
  handlers.flatMap fun handler => handler.kinds.map (Prod.mk .raises)

mutual

def Stmt.mentions : Stmt → List (Category × Kind)
  | .expr _ => []
  | .define _ type _ _ => ProcType.optionalMentions type
  | .assign _ _ _ => []
  | .raise kind _ _ => kind.toList.map (Prod.mk .raises)
  | .branch arms otherwise => BranchArm.allMentions arms ++ Stmt.optionalMentions otherwise
  | .loop _ body => Stmt.allMentions body
  | .protect body handlers cleanup =>
    Handler.listed handlers ++
      (Stmt.allMentions body ++ Handler.allMentions handlers ++ Stmt.optionalMentions cleanup)
  | .block body => Stmt.allMentions body
  | .exit _ => []
  | .marker _ _ => []

def Stmt.allMentions : List Stmt → List (Category × Kind)
  | [] => []
  | stmt :: rest => stmt.mentions ++ Stmt.allMentions rest

def Stmt.optionalMentions : Option (List Stmt) → List (Category × Kind)
  | none => []
  | some body => Stmt.allMentions body

def BranchArm.allMentions : List BranchArm → List (Category × Kind)
  | [] => []
  | .mk _ body :: rest => Stmt.allMentions body ++ BranchArm.allMentions rest

def Handler.allMentions : List Handler → List (Category × Kind)
  | [] => []
  | .mk _ body :: rest => Stmt.allMentions body ++ Handler.allMentions rest

end

def Piece.mentions : Piece → List (Category × Kind)
  | .stmt code => code.mentions
  | .block body => Stmt.allMentions body
  | .optional body => Stmt.optionalMentions body
  | .arms chain otherwise => BranchArm.allMentions chain ++ Stmt.optionalMentions otherwise
  | .handlers _ _ list => Handler.allMentions list

def Routine.mentions (r : Routine) : List (Category × Kind) :=
  r.effects.mentions ++
    ((r.params.filterMap (·.procType?)).flatMap (·.effects.mentions) ++
      Stmt.allMentions (r.body.getD []))

def Routine.signature (r : Routine) : RoutineId × RoutineKind × List Param := (r.id, r.kind, r.params)

namespace Collect

structure Alike (named : RoutineId → Prop) (u w : Setting) : Prop where
  root : u.hierarchies.raises.root = w.hierarchies.raises.root
  kinds : ∀ category kind context, (u.hierarchies.get category).checkKind kind context = .ok () →
    (w.hierarchies.get category).checkKind kind context = .ok ()
  routine : u.routine.signature = w.routine.signature
  routines : ∀ id, named id →
    (u.program.routine? id).map Routine.signature = (w.program.routine? id).map Routine.signature
  globals : ∀ name, u.program.global? name = w.program.global? name

variable {named : RoutineId → Prop} {u w : Setting}

theorem nameAlike (alike : Alike named u w) : u.routine.id = w.routine.id :=
  congrArg Prod.fst alike.routine

theorem paramAlike (alike : Alike named u w) : u.routine.param? = w.routine.param? := by
  have params : u.routine.params = w.routine.params := congrArg (·.2.2) alike.routine
  unfold Routine.param?
  rw [params]

theorem lookupAlike (alike : Alike named u w) {id : RoutineId} (known : named id) {r : Routine}
    (found : lookup u id = .ok r) : ∃ r', lookup w id = .ok r' ∧ r.signature = r'.signature := by
  have same := alike.routines id known
  unfold lookup at found ⊢
  cases left : u.program.routine? id with
  | none => simp [left] at found
  | some r =>
    rw [left] at found
    cases found
    rw [left, Option.map_some, eq_comm, Option.map_eq_some_iff] at same
    obtain ⟨r', right, equal⟩ := same
    rw [right]
    exact ⟨r', rfl, equal.symm⟩

theorem mentionTargetAlike (alike : Alike named u w) (s : Scope) (name : String) :
    mentionTarget u s name = mentionTarget w s name := by
  unfold mentionTarget
  rw [paramAlike alike, alike.globals]

theorem callTargetAlike (alike : Alike named u w) (s : Scope) (name : String) :
    callTarget u s name = callTarget w s name := by
  unfold callTarget
  rw [paramAlike alike, mentionTargetAlike alike]

theorem assignTargetAlike (alike : Alike named u w) (s : Scope) (name : String) :
    assignTarget u s name = assignTarget w s name := by
  unfold assignTarget
  rw [paramAlike alike, alike.globals]

theorem boundValueAlike (alike : Alike named u w) (s : Scope) (value : Expr) :
    boundValue u s value = boundValue w s value := by
  cases value with
  | name name =>
    simp only [boundValue, paramAlike alike, mentionTargetAlike alike]
  | nil => rfl
  | literal text => rfl
  | routine id => rfl
  | call callee args span => rfl

theorem bindingEventsAlike (alike : Alike named u w) (s : Scope) (target : BindingTarget)
    (expected : ProcType) (value : Expr) (span : Span) :
    bindingEvents u s target expected value span = bindingEvents w s target expected value span := by
  unfold bindingEvents
  rw [boundValueAlike alike]

theorem argumentEventsAlike (alike : Alike named u w) (s : Scope) {callee callee' : Routine}
    (id : callee.id = callee'.id) (params : callee.params = callee'.params) (args : List Expr)
    (span : Span) : argumentEvents u s callee args span = argumentEvents w s callee' args span := by
  unfold argumentEvents
  simp only [bindingEventsAlike alike, id, params]

theorem closingAlike (alike : Alike named u w) (place : Place) (s : Scope) (code : Stmt) :
    closingEvents u place s code = closingEvents w place s code := by
  unfold closingEvents definedBindings
  simp only [assignTargetAlike alike, bindingEventsAlike alike]

theorem checkClausesAlike (alike : Alike named u w) {effects : Clauses} {context : String}
    (ok : checkClauses u.hierarchies effects context = .ok ()) :
    checkClauses w.hierarchies effects context = .ok () := by
  have raises := alike.kinds .raises
  have tags := alike.kinds .tags
  unfold checkClauses at ok ⊢
  obtain ⟨_, first, ok⟩ := bindOk.mp ok
  obtain ⟨_, second, third⟩ := bindOk.mp ok
  refine bindOk.mpr ⟨(), forMOk.mpr ?_, bindOk.mpr ⟨(), forMOk.mpr ?_, forMOk.mpr ?_⟩⟩
  · exact fun kind listed => raises kind context (forMOk.mp first kind listed)
  · exact fun kind listed => tags kind context (forMOk.mp second kind listed)
  · exact fun kind listed => tags kind context (forMOk.mp third kind listed)

theorem admittedAlike (alike : Alike named u w) {code : Stmt} (admitted : Admitted u code) :
    Admitted w code := by
  unfold Admitted at admitted ⊢
  rw [← nameAlike alike]
  split at admitted
  · exact fun expected given => checkClausesAlike alike (admitted expected given)
  · exact fun kind given => alike.kinds .raises kind _ (admitted kind given)
  · exact fun handler listed kind member => alike.kinds .raises kind _ (admitted handler listed kind member)
  · trivial

theorem coverageAlike (alike : Alike named u w) (kinds : List Kind) :
    Coverage.ofHandler u.hierarchies.raises kinds = Coverage.ofHandler w.hierarchies.raises kinds := by
  have same : u.hierarchies.raises.isRoot = w.hierarchies.raises.isRoot := by
    funext kind
    unfold Hierarchy.isRoot
    rw [alike.root]
  unfold Coverage.ofHandler
  rw [same]

theorem shieldedAlike (alike : Alike named u w) (place : Place) (construct : Nat) (handlers : List Handler) :
    place.shielded u construct handlers = place.shielded w construct handlers := by
  unfold Place.shielded Place.coverages
  simp only [coverageAlike alike]

theorem handlingAlike (alike : Alike named u w) (place : Place) (construct index : Nat) (kinds : List Kind) :
    place.handling u construct index kinds = place.handling w construct index kinds := by
  unfold Place.handling
  rw [coverageAlike alike]

theorem notesAlike (alike : Alike named u w) {s : Scope} {context : Site.Context} {uses : List Use}
    {events : List Site.Event} (noted : NotesAll u s context uses events)
    (within : ∀ id ∈ uses.flatMap Use.references, named id) : NotesAll w s context uses events := by
  induction noted with
  | nil => exact .nil
  | cons one more ih =>
    rw [List.flatMap_cons, List.forall_mem_append] at within
    refine .cons ?_ (ih within.2)
    cases one with
    | unmeant meant => exact .unmeant (mentionTargetAlike alike s _ ▸ meant)
    | mention meant => exact .mention (mentionTargetAlike alike s _ ▸ meant)
    | routine found =>
      obtain ⟨r, there, _⟩ := lookupAlike alike (within.1 _ (List.mem_singleton_self _)) found
      exact .routine there
    | call found =>
      obtain ⟨r, there, same⟩ := lookupAlike alike (within.1 _ (List.mem_singleton_self _)) found
      simp only [Routine.signature, Prod.mk.injEq] at same
      rw [argumentEventsAlike alike s same.1 same.2.2, same.2.1]
      exact .call there
    | callName =>
      rw [callTargetAlike alike]
      exact .callName
    | callValue => exact .callValue

theorem walkAlike (alike : Alike named u w) {place : Place} {s s' : Scope} {piece : Piece}
    {events : List Site.Event} (walk : Walk u place s piece s' events)
    (within : ∀ id ∈ piece.references, named id) : Walk w place s piece s' events := by
  induction walk with
  | plain simple admitted noted =>
    rw [Piece.references, ← Stmt.usesReferences simple] at within
    rw [closingAlike alike]
    exact .plain simple (admittedAlike alike admitted) (notesAlike alike noted within)
  | branch chain ih =>
    rw [Piece.references, Stmt.references] at within
    exact .branch (ih within)
  | loop tested inside ih =>
    rw [Piece.references, Stmt.references, List.forall_mem_append, ← Expr.usesReferences] at within
    exact .loop (notesAlike alike tested within.1) (ih within.2)
  | protect admitted tried handled cleaned attempt handler last =>
    rw [Piece.references, Stmt.references, List.forall_mem_append, List.forall_mem_append] at within
    rw [shieldedAlike alike] at attempt
    exact .protect (admittedAlike alike admitted) (attempt within.1.1) (handler within.1.2) (last within.2)
  | nested inside ih =>
    rw [Piece.references, Stmt.references] at within
    exact .nested (ih within)
  | nil => exact .nil
  | cons one more first rest =>
    rw [Piece.references, Stmt.allReferences, List.forall_mem_append] at within
    exact .cons (first within.1) (rest within.2)
  | absent => exact .absent
  | present inside ih => exact .present (ih within)
  | skipped last ih => exact .skipped (ih within)
  | arm tested taken more first rest =>
    rw [Piece.references, BranchArm.allReferences, List.append_assoc, List.append_assoc,
      List.forall_mem_append, List.forall_mem_append, ← Expr.usesReferences] at within
    exact .arm (notesAlike alike tested within.1) (first within.2.1) (rest within.2.2)
  | unhandled => exact .unhandled
  | handler one more first rest =>
    rw [Piece.references, Handler.allReferences, List.forall_mem_append] at within
    rw [handlingAlike alike] at first
    exact .handler (first within.1) (rest within.2)

theorem blockEventsAlike (alike : Alike named u w) {place : Place} {s : Scope} {body : List Stmt}
    {result : Scope × List Site.Event} (walked : blockEvents u place s body = .ok result)
    (within : ∀ id ∈ Stmt.allReferences body, named id) : blockEvents w place s body = .ok result :=
  blockWalk.mpr (walkAlike alike (blockWalk.mp walked) within)

theorem routineSitesAlike {program other : Program} {h k : Hierarchies} {r : Routine}
    {sites : RoutineSites} (ok : routineSites program h r = .ok sites)
    (alike : Alike (· ∈ r.references) ⟨program, h, r⟩ ⟨other, k, r⟩) :
    routineSites other k r = .ok sites := by
  unfold routineSites at ok ⊢
  obtain ⟨_, effects, ok⟩ := bindOk.mp ok
  obtain ⟨_, params, ok⟩ := bindOk.mp ok
  obtain ⟨result, walked, last⟩ := bindOk.mp ok
  refine bindOk.mpr ⟨(), checkClausesAlike alike effects, bindOk.mpr ⟨(), forMOk.mpr ?_, ?_⟩⟩
  · exact fun type listed => checkClausesAlike alike (forMOk.mp params type listed)
  · exact bindOk.mpr ⟨result, blockEventsAlike alike walked fun _ listed => listed, last⟩

end Collect
end EffectAudit
