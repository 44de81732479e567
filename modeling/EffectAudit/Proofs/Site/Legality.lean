import EffectAudit.Proofs.Hierarchy.Declared
import EffectAudit.Proofs.Site.Lookup
import EffectAudit.Proofs.Site.Targets
/-! When a body can be walked. The walk visits every statement and expression, and all it can stop at is
a kind that has to be known and is not, or a routine that the unit does not list. Where it does not
stop, it reads nothing else of the strictness of a hierarchy. -/
namespace EffectAudit

def Succeeds {ε α : Type} (x : Except ε α) : Prop := ∃ a, x = .ok a

theorem succeedsOk {ε α : Type} (a : α) : Succeeds (.ok a : Except ε α) := ⟨a, rfl⟩

theorem succeedsUnit {ε : Type} {x : Except ε Unit} : Succeeds x ↔ x = .ok () := by
  constructor
  · intro given
    obtain ⟨⟨⟩, ok⟩ := given
    exact ok
  · intro ok
    exact ⟨(), ok⟩

theorem succeedsIsOk {ε α : Type} {x : Except ε α} : Succeeds x ↔ x.isOk = true := by
  cases x with
  | error e => simp [Succeeds, Except.isOk, Except.toBool]
  | ok a => simp [Succeeds, Except.isOk, Except.toBool]

/- Whether the second part succeeds may not depend on what the first one gives. -/
theorem succeedsBind {ε α β : Type} {x : Except ε α} {f : α → Except ε β} {P Q : Prop}
    (first : Succeeds x ↔ P) (later : ∀ a, Succeeds (f a) ↔ Q) : Succeeds (x >>= f) ↔ P ∧ Q := by
  rw [← first]
  constructor
  · intro given
    obtain ⟨result, ok⟩ := given
    obtain ⟨a, one, two⟩ := bindOk.mp ok
    exact ⟨⟨a, one⟩, (later a).mp ⟨result, two⟩⟩
  · intro given
    obtain ⟨⟨a, one⟩, rest⟩ := given
    obtain ⟨result, two⟩ := (later a).mpr rest
    exact ⟨result, bindOk.mpr ⟨a, one, two⟩⟩

theorem succeedsMap {ε α β : Type} {x : Except ε α} {f : α → β} {P : Prop}
    (first : Succeeds x ↔ P) : Succeeds (x >>= fun a => (.ok (f a) : Except ε β)) ↔ P := by
  rw [succeedsBind first (Q := True) (fun a => iff_true_intro (succeedsOk _)), and_true]

namespace Collect

structure Legal (u : Setting) (mentions : List (Category × Kind)) (references : List RoutineId) :
    Prop where
  kinds : ∀ m ∈ mentions, (u.hierarchies.get m.1).Permits m.2
  routines : ∀ id ∈ references, Listed u id

variable {u : Setting} {mentions mentions' : List (Category × Kind)}
  {references references' : List RoutineId}

theorem legalNil : Legal u [] [] := ⟨by simp, by simp⟩

theorem legalAppend : Legal u (mentions ++ mentions') (references ++ references') ↔
    Legal u mentions references ∧ Legal u mentions' references' := by
  constructor
  · intro given
    obtain ⟨kinds, routines⟩ := given
    rw [List.forall_mem_append] at kinds routines
    exact ⟨⟨kinds.1, routines.1⟩, ⟨kinds.2, routines.2⟩⟩
  · intro given
    obtain ⟨one, two⟩ := given
    exact ⟨List.forall_mem_append.mpr ⟨one.kinds, two.kinds⟩,
      List.forall_mem_append.mpr ⟨one.routines, two.routines⟩⟩

theorem legalKinds : Legal u (mentions ++ mentions') references ↔
    Legal u mentions [] ∧ Legal u mentions' references := by
  rw [← legalAppend, List.nil_append]

theorem legalRoutines : Legal u mentions (references ++ references') ↔
    Legal u [] references ∧ Legal u mentions references' := by
  rw [← legalAppend, List.nil_append]

theorem legalOnlyKinds : (∀ m ∈ mentions, (u.hierarchies.get m.1).Permits m.2) ↔ Legal u mentions [] :=
  ⟨fun kinds => ⟨kinds, by simp⟩, fun legal => legal.kinds⟩

theorem checkKindsLegal (h : Hierarchies) (category : Category) (kinds : List Kind) (context : String) :
    Succeeds (kinds.forM ((h.get category).checkKind · context)) ↔
      ∀ m ∈ kinds.map (Prod.mk category), (h.get m.1).Permits m.2 := by
  rw [succeedsUnit, forMOk]
  simp [Hierarchy.checkKindOk]

theorem checkClausesLegal (h : Hierarchies) (effects : Clauses) (context : String) :
    Succeeds (checkClauses h effects context) ↔
      ∀ m ∈ effects.mentions, (h.get m.1).Permits m.2 := by
  unfold Clauses.mentions checkClauses
  rw [List.forall_mem_append, List.forall_mem_append, and_assoc]
  exact succeedsBind (checkKindsLegal h .raises _ context) fun _ =>
    succeedsBind (checkKindsLegal h .tags _ context) fun _ => checkKindsLegal h .tags _ context

theorem admittedPlain {code : Stmt} (simple : code.isPlain = true) :
    Admitted u code ↔ ∀ m ∈ code.mentions, (u.hierarchies.get m.1).Permits m.2 := by
  cases code, simple using Stmt.plainCases with
  | define name type value span =>
    cases type with
    | none => simp [Admitted, Stmt.mentions, ProcType.optionalMentions]
    | some expected =>
      rw [Stmt.mentions, ProcType.optionalMentions, ← checkClausesLegal _ _ u.routine.id, succeedsUnit]
      simp [Admitted]
  | raise kind args span =>
    cases kind with
    | none => simp [Admitted, Stmt.mentions]
    | some kind => simp [Admitted, Stmt.mentions, Hierarchy.checkKindOk, Hierarchies.get]
  | expr value => simp [Admitted, Stmt.mentions]
  | assign name value span => simp [Admitted, Stmt.mentions]
  | exit value => simp [Admitted, Stmt.mentions]
  | marker label span => simp [Admitted, Stmt.mentions]

theorem admittedProtect {body : List Stmt} {handlers : List Handler} {cleanup : Option (List Stmt)} :
    Admitted u (.protect body handlers cleanup) ↔ Legal u (Handler.listed handlers) [] := by
  rw [← legalOnlyKinds, Handler.listed, List.forall_mem_flatMap]
  simp [Admitted, Hierarchy.checkKindOk, Hierarchies.get]

theorem lookupLegal {id : RoutineId} : Listed u id ↔ ∃ r, lookup u id = .ok r := by
  unfold lookup Listed
  cases u.program.routine? id with
  | none => simp
  | some r => simp

theorem useNoted {s : Scope} {context : Site.Context} {use : Use} :
    (∃ events, Notes u s context use events) ↔ ∀ id ∈ use.references, Listed u id := by
  constructor
  · intro given
    obtain ⟨events, noted⟩ := given
    cases noted with
    | routine found => simpa [Use.references] using lookupLegal.mpr ⟨_, found⟩
    | call found => simpa [Use.references] using lookupLegal.mpr ⟨_, found⟩
    | unmeant meant => simp [Use.references]
    | mention meant => simp [Use.references]
    | callName => simp [Use.references]
    | callValue => simp [Use.references]
  · intro listed
    cases use with
    | name name =>
      cases meant : mentionTarget u s name with
      | none => exact ⟨_, .unmeant meant⟩
      | some target => exact ⟨_, .mention meant⟩
    | routine id =>
      obtain ⟨r, found⟩ := lookupLegal.mp (listed id (List.mem_singleton_self _))
      exact ⟨_, .routine found⟩
    | call id args span =>
      obtain ⟨r, found⟩ := lookupLegal.mp (listed id (List.mem_singleton_self _))
      exact ⟨_, .call found⟩
    | callName name span => exact ⟨_, .callName⟩
    | callValue span => exact ⟨_, .callValue⟩

theorem usesNoted {s : Scope} {context : Site.Context} {uses : List Use} :
    (∃ events, NotesAll u s context uses events) ↔ ∀ id ∈ uses.flatMap Use.references, Listed u id := by
  induction uses with
  | nil => exact iff_of_true ⟨[], .nil⟩ (by simp)
  | cons use rest ih =>
    rw [List.flatMap_cons, List.forall_mem_append, ← ih, ← useNoted]
    constructor
    · intro given
      obtain ⟨events, all⟩ := given
      cases all with
      | cons one more => exact ⟨⟨_, one⟩, ⟨_, more⟩⟩
    · intro given
      obtain ⟨⟨own, one⟩, ⟨others, more⟩⟩ := given
      exact ⟨_, .cons one more⟩

theorem exprNoted {s : Scope} {context : Site.Context} {value : Expr} :
    (∃ events, NotesAll u s context value.uses events) ↔ Legal u [] value.references := by
  rw [usesNoted, Expr.usesReferences]
  exact ⟨fun listed => ⟨by simp, listed⟩, fun legal => legal.routines⟩

theorem walkLegal {place : Place} {s s' : Scope} {piece : Piece} {events : List Site.Event}
    (walk : Walk u place s piece s' events) : Legal u piece.mentions piece.references := by
  induction walk with
  | plain simple admitted noted =>
    refine ⟨(admittedPlain simple).mp admitted, ?_⟩
    rw [Piece.references, ← Stmt.usesReferences simple]
    exact usesNoted.mp ⟨_, noted⟩
  | branch chain ih =>
    rw [Piece.mentions, Piece.references, Stmt.mentions, Stmt.references]
    exact ih
  | loop tested inside ih =>
    rw [Piece.mentions, Piece.references, Stmt.mentions, Stmt.references, legalRoutines]
    exact ⟨exprNoted.mp ⟨_, tested⟩, ih⟩
  | protect admitted tried handled cleaned attempt handler last =>
    rw [Piece.mentions, Piece.references, Stmt.mentions, Stmt.references, legalKinds, legalAppend,
      legalAppend]
    exact ⟨admittedProtect.mp admitted, ⟨attempt, handler⟩, last⟩
  | nested inside ih =>
    rw [Piece.mentions, Piece.references, Stmt.mentions, Stmt.references]
    exact ih
  | nil => exact legalNil
  | cons one more first rest =>
    rw [Piece.mentions, Piece.references, Stmt.allMentions, Stmt.allReferences, legalAppend]
    exact ⟨first, rest⟩
  | absent => exact legalNil
  | present inside ih => exact ih
  | skipped last ih => exact ih
  | arm tested taken more first rest =>
    rw [Piece.mentions, Piece.references, BranchArm.allMentions, BranchArm.allReferences,
      List.append_assoc, List.append_assoc, List.append_assoc, legalRoutines, legalAppend]
    exact ⟨exprNoted.mp ⟨_, tested⟩, first, rest⟩
  | unhandled => exact legalNil
  | handler one more first rest =>
    rw [Piece.mentions, Piece.references, Handler.allMentions, Handler.allReferences, legalAppend]
    exact ⟨first, rest⟩

theorem legalWalk {place : Place} {s : Scope} (piece : Piece)
    (legal : Legal u piece.mentions piece.references) : ∃ s' events, Walk u place s piece s' events := by
  induction piece using Piece.induct generalizing place s with
  | plain code simple =>
    have listed := legal.routines
    rw [Piece.references, ← Stmt.usesReferences simple] at listed
    obtain ⟨own, noted⟩ := usesNoted.mpr listed
    exact ⟨_, _, .plain simple ((admittedPlain simple).mpr legal.kinds) noted⟩
  | branch arms otherwise ih =>
    rw [Piece.mentions, Piece.references, Stmt.mentions, Stmt.references] at legal
    obtain ⟨s', events, chain⟩ := ih legal
    exact ⟨s', events, .branch chain⟩
  | loop cond body ih =>
    rw [Piece.mentions, Piece.references, Stmt.mentions, Stmt.references, legalRoutines] at legal
    obtain ⟨test, tested⟩ := exprNoted.mpr legal.1
    obtain ⟨s', round, inside⟩ := ih legal.2
    exact ⟨s', _, .loop tested inside⟩
  | protect body handlers cleanup attempt handler last =>
    rw [Piece.mentions, Piece.references, Stmt.mentions, Stmt.references, legalKinds, legalAppend,
      legalAppend] at legal
    obtain ⟨listed, ⟨inBody, inHandlers⟩, inCleanup⟩ := legal
    obtain ⟨s₁, first, tried⟩ := attempt inBody
    obtain ⟨s₂, second, handled⟩ := handler _ inHandlers
    obtain ⟨s₃, third, cleaned⟩ := last inCleanup
    exact ⟨s₃, _, .protect (admittedProtect.mpr listed) tried handled cleaned⟩
  | nested body ih =>
    rw [Piece.mentions, Piece.references, Stmt.mentions, Stmt.references] at legal
    obtain ⟨s', events, inside⟩ := ih legal
    exact ⟨s', events, .nested inside⟩
  | nil => exact ⟨s, [], .nil⟩
  | cons code rest first others =>
    rw [Piece.mentions, Piece.references, Stmt.allMentions, Stmt.allReferences, legalAppend] at legal
    obtain ⟨s₁, own, one⟩ := first legal.1
    obtain ⟨s₂, later, more⟩ := others legal.2
    exact ⟨s₂, _, .cons one more⟩
  | absent => exact ⟨s, [], .absent⟩
  | present body ih =>
    obtain ⟨s', events, inside⟩ := ih legal
    exact ⟨s', events, .present inside⟩
  | skipped otherwise ih =>
    obtain ⟨s', events, last⟩ := ih legal
    exact ⟨s', events, .skipped last⟩
  | arm cond body rest otherwise first others =>
    rw [Piece.mentions, Piece.references, BranchArm.allMentions, BranchArm.allReferences,
      List.append_assoc, List.append_assoc, List.append_assoc, legalRoutines, legalAppend] at legal
    obtain ⟨test, tested⟩ := exprNoted.mpr legal.1
    obtain ⟨s₁, own, taken⟩ := first legal.2.1
    obtain ⟨s₂, later, more⟩ := others legal.2.2
    exact ⟨s₂, _, .arm tested taken more⟩
  | unhandled construct index => exact ⟨s, [], .unhandled⟩
  | handler construct index kinds body rest first others =>
    rw [Piece.mentions, Piece.references, Handler.allMentions, Handler.allReferences, legalAppend] at legal
    obtain ⟨s₁, own, one⟩ := first legal.1
    obtain ⟨s₂, later, more⟩ := others legal.2
    exact ⟨s₂, _, .handler one more⟩

theorem blockEventsLegal (place : Place) (s : Scope) (body : List Stmt) :
    Succeeds (blockEvents u place s body) ↔ Legal u (Stmt.allMentions body) (Stmt.allReferences body) := by
  constructor
  · intro given
    obtain ⟨⟨s', events⟩, walked⟩ := given
    exact walkLegal (blockWalk.mp walked)
  · intro legal
    obtain ⟨s', events, walk⟩ := legalWalk (.block body) legal
    exact ⟨(s', events), blockWalk.mpr walk⟩

theorem routineSitesLegal (program : Program) (h : Hierarchies) (r : Routine) :
    Succeeds (routineSites program h r) ↔ Legal ⟨program, h, r⟩ r.mentions r.references := by
  have signature : Succeeds (checkClauses h r.effects r.id) ↔
      Legal ⟨program, h, r⟩ r.effects.mentions [] :=
    (checkClausesLegal h r.effects r.id).trans (legalOnlyKinds (u := ⟨program, h, r⟩))
  have params : Succeeds ((r.params.filterMap (·.procType?)).forM (checkClauses h ·.effects r.id)) ↔
      Legal ⟨program, h, r⟩ ((r.params.filterMap (·.procType?)).flatMap (·.effects.mentions)) [] := by
    rw [succeedsUnit, forMOk]
    simp only [← succeedsUnit, checkClausesLegal, ← List.forall_mem_flatMap]
    exact legalOnlyKinds (u := ⟨program, h, r⟩)
  unfold routineSites
  rw [Routine.mentions, Routine.references, legalKinds, legalKinds]
  exact succeedsBind signature fun _ => succeedsBind params fun _ =>
    succeedsMap (blockEventsLegal _ _ _)

end Collect
end EffectAudit
