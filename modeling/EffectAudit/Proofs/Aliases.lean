import EffectAudit.Analysis
import EffectAudit.Proofs.Site.Walk
/-! What is checked of a procedure value that goes through an untyped local. A local that was set to a
routine is checked as that routine wherever it is put. A local that was set to anything else, be it
the result of a call or a value of procedure type, is not checked at all, and neither are the
arguments of a call through a local. -/
namespace EffectAudit

mutual

def Stmt.targets : Stmt → List String
  | .expr _ => []
  | .define name _ _ _ => [name]
  | .assign name _ _ => [name]
  | .raise .. => []
  | .branch arms otherwise => BranchArm.allTargets arms ++ Stmt.optionalTargets otherwise
  | .loop _ body => Stmt.allTargets body
  | .protect body handlers cleanup =>
    Stmt.allTargets body ++ Handler.allTargets handlers ++ Stmt.optionalTargets cleanup
  | .block body => Stmt.allTargets body
  | .exit _ => []
  | .marker .. => []

def Stmt.allTargets : List Stmt → List String
  | [] => []
  | stmt :: rest => stmt.targets ++ Stmt.allTargets rest

def Stmt.optionalTargets : Option (List Stmt) → List String
  | none => []
  | some body => Stmt.allTargets body

def BranchArm.allTargets : List BranchArm → List String
  | [] => []
  | .mk _ body :: rest => Stmt.allTargets body ++ BranchArm.allTargets rest

def Handler.allTargets : List Handler → List String
  | [] => []
  | .mk _ body :: rest => Stmt.allTargets body ++ Handler.allTargets rest

end

def Piece.targets : Piece → List String
  | .stmt code => code.targets
  | .block body => Stmt.allTargets body
  | .optional body => Stmt.optionalTargets body
  | .arms chain otherwise => BranchArm.allTargets chain ++ Stmt.optionalTargets otherwise
  | .handlers _ _ list => Handler.allTargets list

namespace Collect

variable {u : Setting} {h : Hierarchies} {table : EffectTable} {id : RoutineId}

def bindingViolations (h : Hierarchies) (table : EffectTable) (id : RoutineId)
    (events : List Site.Event) : List Violation :=
  (RoutineSites.ofEvents id events).bindings.flatMap (Assignability.checkBinding h table id)

def eventViolations (h : Hierarchies) (table : EffectTable) (id : RoutineId) :
    Site.Event → List Violation
  | .binding target expected value span =>
    Assignability.checkBinding h table id ⟨0, target, expected, value, span⟩
  | _ => []

theorem violationsByEvent (events : List Site.Event) :
    bindingViolations h table id events = events.flatMap (eventViolations h table id) := by
  have shifted (start : Nat) :
      ((events.zipIdx start).filterMap fun numbered => numbered.1.binding? numbered.2).flatMap
        (Assignability.checkBinding h table id) = events.flatMap (eventViolations h table id) := by
    induction events generalizing start with
    | nil => rfl
    | cons event rest ih =>
      rw [List.flatMap_cons, ← ih (start + 1)]
      cases event <;> rfl
  exact shifted 0

theorem bindKeeps {name other : String} (different : name ≠ other) (s : Scope) (item : Local) :
    (s.bind other item).find? name = s.find? name := by
  unfold Scope.bind Scope.find?
  rw [List.lookup_cons, beq_false_of_ne different]

theorem reassignKeeps {name other : String} (different : name ≠ other) (s : Scope) :
    (s.reassign other).find? name = s.find? name := by
  unfold Scope.reassign
  split
  · exact bindKeeps different s _
  · rfl

theorem settledKeeps {name : String} {code : Stmt} (kept : name ∉ code.targets) (s : Scope) :
    (settled s code).find? name = s.find? name := by
  unfold settled
  split
  · exact bindKeeps (List.ne_of_not_mem_cons kept) s _
  · exact reassignKeeps (List.ne_of_not_mem_cons kept) s
  · rfl

theorem walkKeeps {place : Place} {s s' : Scope} {piece : Piece} {events : List Site.Event}
    (walk : Walk u place s piece s' events) {name : String} (kept : name ∉ piece.targets) :
    s'.find? name = s.find? name := by
  induction walk with
  | plain simple admitted noted => exact settledKeeps kept _
  | branch chain ih =>
    rw [Piece.targets, Stmt.targets] at kept
    exact ih kept
  | loop tested inside ih =>
    rw [Piece.targets, Stmt.targets] at kept
    exact ih kept
  | protect admitted tried handled cleaned attempt handler last =>
    simp only [Piece.targets, Stmt.targets, List.mem_append, not_or] at kept
    rw [last kept.2, handler kept.1.2, attempt kept.1.1]
    rfl
  | nested inside ih =>
    rw [Piece.targets, Stmt.targets] at kept
    exact ih kept
  | nil => rfl
  | cons one more first rest =>
    simp only [Piece.targets, Stmt.allTargets, List.mem_append, not_or] at kept
    rw [rest kept.2, first kept.1]
  | absent => rfl
  | present inside ih => exact ih kept
  | skipped last ih => exact ih kept
  | arm tested taken more first rest =>
    simp only [Piece.targets, BranchArm.allTargets, List.mem_append, not_or] at kept
    rw [rest (by simp [Piece.targets, kept]), first kept.1.1]
    rfl
  | unhandled => rfl
  | handler one more first rest =>
    simp only [Piece.targets, Handler.allTargets, List.mem_append, not_or] at kept
    rw [rest kept.2, first kept.1]

theorem untypedLocalBound {s : Scope} {name : String} {origin : Option RoutineId}
    (there : s.find? name = some ⟨none, origin⟩) (target : BindingTarget) (expected : ProcType)
    (span : Span) :
    bindingEvents u s target expected (.name name) span =
      origin.elim [] fun routine => bindingEvents u s target expected (.routine routine) span := by
  have value : boundValue u s (.name name) = origin.map .routine := by
    cases origin <;> simp [boundValue, mentionTarget, there]
  unfold bindingEvents
  rw [value]
  cases origin with
  | none => simp
  | some routine => rfl

theorem untypedLocalsChecked {place place' : Place} {s s₁ s₂ : Scope} {name : String} {value : Expr}
    {span : Span} {between : List Stmt} {own passed : List Site.Event}
    (defined : stmtEvents u place s (.define name none (some value) span) = .ok (s₁, own))
    (followed : blockEvents u place' s₁ between = .ok (s₂, passed))
    (kept : name ∉ Stmt.allTargets between) (h : Hierarchies) (table : EffectTable) (id : RoutineId) :
    (∀ target expected span, bindingViolations h table id
        (bindingEvents u s₂ target expected (.name name) span) =
      (originOf s value).elim [] fun routine =>
        bindingViolations h table id (bindingEvents u s₂ target expected (.routine routine) span)) ∧
    ∀ context args span events,
      exprEvents u s₂ context (.call (.binding name) args span) = .ok events →
        ∃ arguments, exprsEvents u s₂ context args = .ok arguments ∧
          bindingViolations h table id events = bindingViolations h table id arguments := by
  have there : s₂.find? name = some ⟨none, originOf s value⟩ := by
    rw [walkKeeps (blockWalk.mp followed) kept]
    obtain ⟨_, _, _, rfl, _⟩ := (plainOk rfl).mp defined
    simp [settled, Scope.bind, Scope.find?, Tree.definedLocal]
  refine ⟨?_, ?_⟩
  · intro target expected span
    rw [untypedLocalBound there]
    cases originOf s value with
    | none => rfl
    | some routine => rfl
  · intro context args span events walked
    rw [exprNotes, Expr.uses, Callee.uses, notesAppend] at walked
    obtain ⟨called, arguments, one, more, rfl⟩ := walked
    refine ⟨arguments, (exprsNotes args).mpr more, ?_⟩
    cases notesSingle.mp one with
    | callName =>
      rw [violationsByEvent, violationsByEvent]
      rfl

def relayMain (callee : Callee) : Routine :=
  { id := "main"
    body := some [
      .define "f" none (some (.routine "apply")) .zero,
      .expr (.call callee [.routine "bad"] .zero)] }

/- A routine that takes a harmless procedure gets one that raises, directly or through a local. -/
def relay (callee : Callee) : Program :=
  { unit := "relay"
    routines := [
      relayMain callee,
      { id := "apply", params := [⟨"step", .proc ⟨{ raises := some [] }⟩⟩], body := some [] },
      { id := "bad", body := some [.raise (some "IOError") [] .zero] }] }

theorem relayThroughLocal :
    let u : Setting := ⟨relay (.binding "f"), .builtin, relayMain (.binding "f")⟩
    let s : Scope := { locals := [("f", ⟨none, some "apply"⟩)] }
    ∃ result, analyze (.ofPreset .permissive) {} (relay (.binding "f")) = .ok result ∧
      (∀ target expected span,
        bindingViolations .builtin result.table "main" (bindingEvents u s target expected (.name "f") span) =
          bindingViolations .builtin result.table "main"
            (bindingEvents u s target expected (.routine "apply") span)) ∧
      ∃ events, exprEvents u s {} (.call (.binding "f") [.routine "bad"] .zero) = .ok events ∧
        bindingViolations .builtin result.table "main" events = [] := by
  intro u s
  cases analyzed : analyze (.ofPreset .permissive) {} (relay (.binding "f")) with
  | error problem =>
    have succeeds : (analyze (.ofPreset .permissive) {} (relay (.binding "f"))).isOk = true := by
      decide +kernel
    rw [analyzed] at succeeds
    contradiction
  | ok result =>
    have defined : stmtEvents u {} {} (.define "f" none (some (.routine "apply")) .zero) =
        .ok (s, [.edge .mention (.routine "apply") {} .zero]) := rfl
    have followed : blockEvents u {} s [] = .ok (s, []) := rfl
    have kept : "f" ∉ Stmt.allTargets [] := by simp [Stmt.allTargets]
    have checked := untypedLocalsChecked defined followed kept .builtin result.table "main"
    refine ⟨result, rfl, checked.1, _, rfl, ?_⟩
    obtain ⟨arguments, walked, same⟩ := checked.2 {} [.routine "bad"] .zero _ rfl
    cases walked
    exact same

def detour (value : Expr) : Program :=
  { unit := "detour"
    routines := [
      { id := "main"
        body := some [
          .define "f" none (some (.call (.routine "make") [] .zero)) .zero,
          .define "g" (some ⟨{ raises := some [] }⟩) (some value) .zero] },
      { id := "make", origin := .foreign, effects := { raises := some [], tags := some [] } }] }

theorem localsHideViolations :
    (analyze (.ofPreset .permissive) {} (relay (.routine "apply"))).toOption.map (·.violations) =
        some [.incompatibleBinding "main" (.param "apply" "step") (.routine "bad") .raises ["IOError"]
          .zero] ∧
      (analyze (.ofPreset .permissive) {} (relay (.binding "f"))).toOption.map (·.violations) = some [] ∧
      (analyze (.ofPreset .permissive) {} (detour (.call (.routine "make") [] .zero))).toOption.map
          (·.violations) =
        some [.incompatibleBinding "main" (.local "g") (.proc "make(...)" {}) .raises ["Exception"] .zero] ∧
      (analyze (.ofPreset .permissive) {} (detour (.name "f"))).toOption.map (·.violations) = some [] := by
  decide +kernel

end Collect
end EffectAudit
