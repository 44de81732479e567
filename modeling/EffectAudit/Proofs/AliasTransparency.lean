import EffectAudit.Proofs.Inference.Interchange
/-! An untyped local that stands for a routine is transparent. Wherever the walk holds it as an alias, the
routine itself may be written instead, in a call or as a value. The walk then notes the call under
another kind and checks its arguments, which adds bindings and shifts ordinals, but no effect depends
on that: tables, passes and reports stay as they are. -/
namespace EffectAudit
open Collect

mutual

inductive Expr.Unaliased (s : Scope) : Expr → Expr → Prop where
  | same (value : Expr) : Expr.Unaliased s value value
  | followed {name : String} {id : RoutineId} (held : s.find? name = some ⟨none, some id⟩) :
    Expr.Unaliased s (.name name) (.routine id)
  | call {callee callee' : Callee} {args args' : List Expr} (span : Span)
    (called : Callee.Unaliased s callee callee') (passed : Expr.AllUnaliased s args args') :
    Expr.Unaliased s (.call callee args span) (.call callee' args' span)

inductive Callee.Unaliased (s : Scope) : Callee → Callee → Prop where
  | same (callee : Callee) : Callee.Unaliased s callee callee
  | followed {name : String} {id : RoutineId} (held : s.find? name = some ⟨none, some id⟩) :
    Callee.Unaliased s (.binding name) (.routine id)
  | computed {value value' : Expr} (inner : Expr.Unaliased s value value') :
    Callee.Unaliased s (.computed value) (.computed value')

inductive Expr.AllUnaliased (s : Scope) : List Expr → List Expr → Prop where
  | nil : Expr.AllUnaliased s [] []
  | cons {value value' : Expr} {rest rest' : List Expr} (first : Expr.Unaliased s value value')
    (others : Expr.AllUnaliased s rest rest') : Expr.AllUnaliased s (value :: rest) (value' :: rest')

end

def Expr.OptionalUnaliased (s : Scope) : Option Expr → Option Expr → Prop :=
  Option.Rel (Expr.Unaliased s)

mutual

/- Some locals are replaced by the routines they stand for. The locals are followed in source order, from
those before the statement to those after it. -/
inductive Stmt.Unaliased : Scope → Stmt → Stmt → Scope → Prop where
  | expr {s : Scope} {value value' : Expr} (inner : value.Unaliased s value') :
    Stmt.Unaliased s (.expr value) (.expr value') s
  | define {s : Scope} {value value' : Option Expr} (name : String) (type : Option ProcType)
    (span : Span) (inner : Expr.OptionalUnaliased s value value') :
    Stmt.Unaliased s (.define name type value span) (.define name type value' span)
      (s.bind name (Tree.definedLocal s type value))
  | assign {s : Scope} {value value' : Expr} (name : String) (span : Span)
    (inner : value.Unaliased s value') :
    Stmt.Unaliased s (.assign name value span) (.assign name value' span) (s.reassign name)
  | raise {s : Scope} {args args' : List Expr} (kind : Option Kind) (span : Span)
    (inner : Expr.AllUnaliased s args args') :
    Stmt.Unaliased s (.raise kind args span) (.raise kind args' span) s
  | branch {s t v : Scope} {arms arms' : List BranchArm} {otherwise otherwise' : Option (List Stmt)}
    (taken : BranchArm.AllUnaliased s arms arms' t)
    (last : Stmt.OptionalUnaliased t otherwise otherwise' v) :
    Stmt.Unaliased s (.branch arms otherwise) (.branch arms' otherwise') v
  | loop {s t : Scope} {cond cond' : Expr} {body body' : List Stmt} (test : cond.Unaliased s cond')
    (round : Stmt.AllUnaliased s body body' t) : Stmt.Unaliased s (.loop cond body) (.loop cond' body') t
  | protect {s t v w : Scope} {body body' : List Stmt} {handlers handlers' : List Handler}
    {cleanup cleanup' : Option (List Stmt)} (tried : Stmt.AllUnaliased s body body' t)
    (handled : Handler.AllUnaliased t handlers handlers' v)
    (last : Stmt.OptionalUnaliased v cleanup cleanup' w) :
    Stmt.Unaliased s (.protect body handlers cleanup) (.protect body' handlers' cleanup') w
  | block {s t : Scope} {body body' : List Stmt} (inner : Stmt.AllUnaliased s body body' t) :
    Stmt.Unaliased s (.block body) (.block body') t
  | exit {s : Scope} {value value' : Option Expr} (inner : Expr.OptionalUnaliased s value value') :
    Stmt.Unaliased s (.exit value) (.exit value') s
  | marker {s : Scope} (label : Option String) (span : Span) :
    Stmt.Unaliased s (.marker label span) (.marker label span) s

inductive Stmt.AllUnaliased : Scope → List Stmt → List Stmt → Scope → Prop where
  | nil {s : Scope} : Stmt.AllUnaliased s [] [] s
  | cons {s t v : Scope} {stmt stmt' : Stmt} {rest rest' : List Stmt}
    (first : Stmt.Unaliased s stmt stmt' t) (others : Stmt.AllUnaliased t rest rest' v) :
    Stmt.AllUnaliased s (stmt :: rest) (stmt' :: rest') v

inductive Stmt.OptionalUnaliased : Scope → Option (List Stmt) → Option (List Stmt) → Scope → Prop where
  | none {s : Scope} : Stmt.OptionalUnaliased s none none s
  | some {s t : Scope} {body body' : List Stmt} (inner : Stmt.AllUnaliased s body body' t) :
    Stmt.OptionalUnaliased s (some body) (some body') t

inductive BranchArm.AllUnaliased : Scope → List BranchArm → List BranchArm → Scope → Prop where
  | nil {s : Scope} : BranchArm.AllUnaliased s [] [] s
  | cons {s t v : Scope} {cond cond' : Expr} {body body' : List Stmt} {rest rest' : List BranchArm}
    (test : cond.Unaliased s cond') (taken : Stmt.AllUnaliased s body body' t)
    (others : BranchArm.AllUnaliased t rest rest' v) :
    BranchArm.AllUnaliased s (.mk cond body :: rest) (.mk cond' body' :: rest') v

inductive Handler.AllUnaliased : Scope → List Handler → List Handler → Scope → Prop where
  | nil {s : Scope} : Handler.AllUnaliased s [] [] s
  | cons {s t v : Scope} {body body' : List Stmt} {rest rest' : List Handler} (kinds : List Kind)
    (first : Stmt.AllUnaliased s body body' t) (others : Handler.AllUnaliased t rest rest' v) :
    Handler.AllUnaliased s (.mk kinds body :: rest) (.mk kinds body' :: rest') v

end

inductive Piece.Unaliased (s : Scope) : Piece → Piece → Scope → Prop where
  | stmt {t : Scope} {code code' : Stmt} (inner : Stmt.Unaliased s code code' t) :
    Piece.Unaliased s (.stmt code) (.stmt code') t
  | block {t : Scope} {body body' : List Stmt} (inner : Stmt.AllUnaliased s body body' t) :
    Piece.Unaliased s (.block body) (.block body') t
  | optional {t : Scope} {body body' : Option (List Stmt)} (inner : Stmt.OptionalUnaliased s body body' t) :
    Piece.Unaliased s (.optional body) (.optional body') t
  | arms {t v : Scope} {arms arms' : List BranchArm} {otherwise otherwise' : Option (List Stmt)}
    (taken : BranchArm.AllUnaliased s arms arms' t)
    (last : Stmt.OptionalUnaliased t otherwise otherwise' v) :
    Piece.Unaliased s (.arms arms otherwise) (.arms arms' otherwise') v
  | handlers {t : Scope} {handlers handlers' : List Handler} (construct index : Nat)
    (inner : Handler.AllUnaliased s handlers handlers' t) :
    Piece.Unaliased s (.handlers construct index handlers) (.handlers construct index handlers') t

inductive Use.Unaliased (s : Scope) : Use → Use → Prop where
  | same (use : Use) : Use.Unaliased s use use
  | followed {name : String} {id : RoutineId} (held : s.find? name = some ⟨none, some id⟩) :
    Use.Unaliased s (.name name) (.routine id)
  | called {name : String} {id : RoutineId} (args : List Expr) (span : Span)
    (held : s.find? name = some ⟨none, some id⟩) :
    Use.Unaliased s (.callName name span) (.call id args span)
  | passed (id : RoutineId) (args args' : List Expr) (span : Span) :
    Use.Unaliased s (.call id args span) (.call id args' span)

theorem Use.allSame (s : Scope) (uses : List Use) : List.Forall₂ (Use.Unaliased s) uses uses :=
  List.forall₂_same.mpr fun use _ => .same use

mutual

theorem Expr.usesUnaliased {s : Scope} {value value' : Expr} (unaliased : value.Unaliased s value') :
    List.Forall₂ (Use.Unaliased s) value.uses value'.uses := by
  cases unaliased with
  | same => exact Use.allSame s _
  | followed held => exact .cons (.followed held) .nil
  | call span called passed =>
    exact List.rel_append (Callee.usesUnaliased called _ _ span) (Expr.allUsesUnaliased passed)
termination_by structural value

theorem Callee.usesUnaliased {s : Scope} {callee callee' : Callee} (unaliased : callee.Unaliased s callee')
    (args args' : List Expr) (span : Span) :
    List.Forall₂ (Use.Unaliased s) (callee.uses args span) (callee'.uses args' span) := by
  cases unaliased with
  | same =>
    cases callee with
    | routine id => exact .cons (.passed id args args' span) .nil
    | binding name => exact Use.allSame s _
    | computed value => exact Use.allSame s _
  | followed held => exact .cons (.called args' span held) .nil
  | computed inner => exact .cons (.same _) (Expr.usesUnaliased inner)
termination_by structural callee

theorem Expr.allUsesUnaliased {s : Scope} {values values' : List Expr}
    (unaliased : Expr.AllUnaliased s values values') :
    List.Forall₂ (Use.Unaliased s) (Expr.allUses values) (Expr.allUses values') := by
  cases unaliased with
  | nil => exact .nil
  | cons first others =>
    exact List.rel_append (Expr.usesUnaliased first) (Expr.allUsesUnaliased others)
termination_by structural values

end

def Stmt.BodyUnaliased (body body' : List Stmt) : Prop := ∃ s, Stmt.AllUnaliased {} body body' s

def Program.Unaliased (p p' : Program) : Prop := p.Rewritten Stmt.BodyUnaliased p'

namespace Collect

variable {u : Setting}

theorem sameEffectsAppend {first first' second second' : List Site.Event}
    (one : SameEffects first first') (two : SameEffects second second') :
    SameEffects (first ++ second) (first' ++ second') := by
  unfold SameEffects at one two ⊢
  rw [List.filterMap_append, List.filterMap_append, one, two]

theorem bindingsIneffective {events : List Site.Event} (only : OnlyBindings events) :
    SameEffects events [] := by
  unfold SameEffects
  rw [List.filterMap_nil, List.filterMap_eq_nil_iff]
  intro event member
  obtain ⟨target, expected, value, span, rfl⟩ := only event member
  rfl

theorem lookupHeld {s : Scope} (scope : ScopeListed u s) {name : String} {id : RoutineId}
    (held : s.find? name = some ⟨none, some id⟩) : ∃ r, lookup u id = .ok r := by
  obtain ⟨r, found⟩ := scope name _ id held rfl
  unfold lookup
  rw [found]
  exact ⟨r, rfl⟩

theorem mentionHeld {s : Scope} {name : String} {id : RoutineId}
    (held : s.find? name = some ⟨none, some id⟩) :
    mentionTarget u s name = some (.binding name .unconstrained (some id)) := by
  unfold mentionTarget
  rw [held]

theorem callHeld {s : Scope} {name : String} {id : RoutineId}
    (held : s.find? name = some ⟨none, some id⟩) :
    callTarget u s name = (.indirectLocal, .binding name .unconstrained (some id)) := by
  unfold callTarget
  rw [mentionHeld held, held]
  rfl

theorem callDirect (s : Scope) (context : Site.Context) (args : List Expr) (span : Span)
    (id : RoutineId) (r : Routine) :
    SameEffects (.edge (if r.kind.isDispatched then .method else .direct) (.routine id) context span ::
      argumentEvents u s r args span) [.edge .direct (.routine id) context span] := by
  have edge (kind : EdgeKind) (direct : kind ≠ .indirectParam) :
      SameEffects [.edge kind (.routine id) context span] [.edge .direct (.routine id) context span] := by
    simp [SameEffects, Site.Event.effective?, EdgeKind.plain, direct]
  refine sameEffectsAppend (edge _ ?_) (bindingsIneffective (argumentEventsOnly r args span))
  split
  · simp
  · simp

theorem notesMirrored {s : Scope} (scope : ScopeListed u s) {context : Site.Context} {uses uses' : List Use}
    (unaliased : List.Forall₂ (Use.Unaliased (Tree.unnumbered s)) uses uses') {events : List Site.Event}
    (noted : NotesAll u s context uses events) :
    ∃ events', NotesAll u s context uses' events' ∧ SameEffects events events' := by
  induction unaliased generalizing events with
  | nil => exact ⟨events, noted, rfl⟩
  | cons first others ih =>
    cases noted with
    | cons one more =>
      obtain ⟨rest, later, same⟩ := ih more
      cases first with
      | same => exact ⟨_, .cons one later, sameEffectsAppend rfl same⟩
      | followed held =>
        obtain ⟨r, found⟩ := lookupHeld scope held
        cases one with
        | unmeant meant => simp [mentionHeld (s := s) held] at meant
        | mention meant =>
          rw [mentionHeld (s := s) held] at meant
          cases meant
          exact ⟨_, .cons (.routine found) later, sameEffectsAppend rfl same⟩
      | called args span held =>
        obtain ⟨r, found⟩ := lookupHeld scope held
        cases one with
        | callName =>
          rw [callHeld (s := s) held]
          exact ⟨_, .cons (.call found) later,
            sameEffectsAppend (callDirect s context args span _ r).symm same⟩
      | passed id args args' span =>
        cases one with
        | @call _ _ _ r found =>
          exact ⟨_, .cons (.call found) later, sameEffectsAppend
            ((callDirect s context args span id r).trans (callDirect s context args' span id r).symm) same⟩

theorem originMirrored {s : Scope} {value value' : Option Expr}
    (unaliased : Expr.OptionalUnaliased (Tree.unnumbered s) value value') :
    value'.bind (originOf s) = value.bind (originOf s) := by
  cases unaliased with
  | none => rfl
  | some inner =>
    cases inner with
    | same => rfl
    | call span called passed => rfl
    | followed held =>
      replace held : s.find? _ = some ⟨none, some _⟩ := held
      simp only [Option.bind_some, originOf, held]

structure Counterpart (u : Setting) (place : Place) (s : Scope) (code code' : Stmt) : Prop where
  plain : code'.isPlain = true
  admitted : Admitted u code → Admitted u code'
  uses : List.Forall₂ (Use.Unaliased (Tree.unnumbered s)) code.uses code'.uses
  scope : settled s code' = settled s code
  closing : SameEffects (closingEvents u place s code) (closingEvents u place s code')

theorem definedSame {s : Scope} {value value' : Option Expr}
    (unaliased : Expr.OptionalUnaliased (Tree.unnumbered s) value value') (type : Option ProcType) :
    Tree.definedLocal s type value' = Tree.definedLocal s type value := by
  cases type with
  | none => rw [Tree.definedLocal, Tree.definedLocal, originMirrored unaliased]
  | some expected => rfl

theorem bindingsSame {events events' : List Site.Event} (only : OnlyBindings events)
    (only' : OnlyBindings events') : SameEffects events events' :=
  (bindingsIneffective only).trans (bindingsIneffective only').symm

theorem optionalUses {s : Scope} {value value' : Option Expr}
    (unaliased : Expr.OptionalUnaliased s value value') :
    List.Forall₂ (Use.Unaliased s) (Expr.optionalUses value) (Expr.optionalUses value') := by
  cases unaliased with
  | none => exact .nil
  | some inner => exact Expr.usesUnaliased inner

theorem plainMirrored (place : Place) {s t : Scope} {code code' : Stmt} (simple : code.isPlain = true)
    (unaliased : Stmt.Unaliased (Tree.unnumbered s) code code' t) :
    t = Tree.unnumbered (settled s code) ∧ Counterpart u place s code code' := by
  cases unaliased with
  | expr inner => exact ⟨rfl, rfl, fun _ => trivial, Expr.usesUnaliased inner, rfl, rfl⟩
  | define name type span inner =>
    exact ⟨rfl, rfl, fun admitted => admitted, optionalUses inner,
      congrArg (s.bind name) (definedSame inner type),
      bindingsSame (closingOnly (by simp) (by simp)) (closingOnly (by simp) (by simp))⟩
  | assign name span inner =>
    exact ⟨Tree.settledUnnumbered s (.assign name _ span), rfl, fun _ => trivial,
      Expr.usesUnaliased inner, rfl,
      bindingsSame (closingOnly (by simp) (by simp)) (closingOnly (by simp) (by simp))⟩
  | raise kind span inner =>
    exact ⟨rfl, rfl, fun admitted => admitted, Expr.allUsesUnaliased inner, rfl, rfl⟩
  | exit inner => exact ⟨rfl, rfl, fun _ => trivial, optionalUses inner, rfl, rfl⟩
  | marker label span => exact ⟨rfl, rfl, fun _ => trivial, .nil, rfl, rfl⟩
  | branch taken last => exact absurd simple Bool.false_ne_true
  | loop test round => exact absurd simple Bool.false_ne_true
  | protect tried handled last => exact absurd simple Bool.false_ne_true
  | block inner => exact absurd simple Bool.false_ne_true

theorem handlerKindsSame {t v : Scope} {handlers handlers' : List Handler}
    (unaliased : Handler.AllUnaliased t handlers handlers' v) :
    handlers'.map Handler.kinds = handlers.map Handler.kinds := by
  induction handlers generalizing t handlers' with
  | nil =>
    cases unaliased
    rfl
  | cons handler rest ih =>
    cases unaliased with
    | cons kinds first others =>
      rw [List.map_cons, List.map_cons, ih others]
      rfl

theorem shieldedSame {handlers handlers' : List Handler}
    (kinds : handlers'.map Handler.kinds = handlers.map Handler.kinds) (place : Place) (construct : Nat) :
    place.shielded u construct handlers' = place.shielded u construct handlers := by
  have covered (list : List Handler) : Place.coverages u list =
      (list.map Handler.kinds).map (Coverage.ofHandler u.hierarchies.raises) := by
    simp [Place.coverages]
  unfold Place.shielded
  rw [covered, covered, kinds]

theorem admittedSame {body body' : List Stmt} {handlers handlers' : List Handler}
    {cleanup cleanup' : Option (List Stmt)}
    (kinds : handlers'.map Handler.kinds = handlers.map Handler.kinds)
    (admitted : Admitted u (.protect body handlers cleanup)) :
    Admitted u (.protect body' handlers' cleanup') := by
  intro handler listed
  obtain ⟨other, there, same⟩ := List.mem_map.mp (kinds ▸ List.mem_map_of_mem listed)
  rw [← same]
  exact admitted other there

theorem walkMirrored {place : Place} {s s' t : Scope} {piece piece' : Piece} {events : List Site.Event}
    (walk : Walk u place s piece s' events) (scope : ScopeListed u s)
    (unaliased : Piece.Unaliased (Tree.unnumbered s) piece piece' t) :
    t = Tree.unnumbered s' ∧ ∃ events', Walk u place s piece' s' events' ∧ SameEffects events events' := by
  induction walk generalizing piece' t with
  | @plain place s code own simple admitted noted =>
    cases unaliased with
    | stmt inner =>
      obtain ⟨same, other⟩ := plainMirrored place simple inner
      obtain ⟨own, noted', effects⟩ := notesMirrored scope other.uses noted
      have walk' := Walk.plain other.plain (other.admitted admitted) noted'
      rw [other.scope] at walk'
      exact ⟨same, _, walk', sameEffectsAppend effects other.closing⟩
  | branch chain ih =>
    cases unaliased with
    | stmt inner =>
      cases inner with
      | branch taken last =>
        obtain ⟨same, events', walk', effects⟩ := ih scope (.arms taken last)
        exact ⟨same, events', .branch walk', effects⟩
  | loop tested inside ih =>
    cases unaliased with
    | stmt inner =>
      cases inner with
      | loop test round =>
        obtain ⟨cond, tested', condition⟩ := notesMirrored scope (Expr.usesUnaliased test) tested
        obtain ⟨same, body, inside', effects⟩ := ih scope (.block round)
        exact ⟨same, _, .loop tested' inside', sameEffectsAppend condition effects⟩
  | protect admitted tried handled cleaned attempt handler last =>
    cases unaliased with
    | stmt inner =>
      cases inner with
      | protect body handlers cleanup =>
        have kinds := handlerKindsSame handlers
        obtain ⟨rfl, first, tried', one⟩ := attempt scope (.block body)
        have left := (walkListed tried scope).1
        obtain ⟨rfl, second, handled', two⟩ := handler left (.handlers _ _ handlers)
        have caught := (walkListed handled left).1
        obtain ⟨same, third, cleaned', three⟩ := last caught (.optional cleanup)
        rw [← shieldedSame kinds] at tried'
        exact ⟨same, _, .protect (admittedSame kinds admitted) tried' handled' cleaned',
          sameEffectsAppend (sameEffectsAppend one two) three⟩
  | nested inside ih =>
    cases unaliased with
    | stmt inner =>
      cases inner with
      | block body =>
        obtain ⟨same, events', walk', effects⟩ := ih scope (.block body)
        exact ⟨same, events', .nested walk', effects⟩
  | nil =>
    cases unaliased with
    | block inner =>
      cases inner
      exact ⟨rfl, [], .nil, rfl⟩
  | cons one more first rest =>
    cases unaliased with
    | block inner =>
      cases inner with
      | cons code others =>
        obtain ⟨rfl, own, one', here⟩ := first scope (.stmt code)
        obtain ⟨same, later, more', there⟩ := rest (walkListed one scope).1 (.block others)
        exact ⟨same, _, .cons one' more', sameEffectsAppend here there⟩
  | absent =>
    cases unaliased with
    | optional inner =>
      cases inner
      exact ⟨rfl, [], .absent, rfl⟩
  | present inside ih =>
    cases unaliased with
    | optional inner =>
      cases inner with
      | some body =>
        obtain ⟨same, events', walk', effects⟩ := ih scope (.block body)
        exact ⟨same, events', .present walk', effects⟩
  | skipped last ih =>
    cases unaliased with
    | arms taken otherwise =>
      cases taken
      obtain ⟨same, events', walk', effects⟩ := ih scope (.optional otherwise)
      exact ⟨same, events', .skipped walk', effects⟩
  | arm tested taken more first rest =>
    cases unaliased with
    | arms chain otherwise =>
      cases chain with
      | cons test body others =>
        obtain ⟨cond, tested', condition⟩ := notesMirrored scope (Expr.usesUnaliased test) tested
        obtain ⟨rfl, own, taken', here⟩ := first scope (.block body)
        obtain ⟨same, later, more', there⟩ := rest (walkListed taken scope).1 (.arms others otherwise)
        exact ⟨same, _, .arm tested' taken' more',
          sameEffectsAppend (sameEffectsAppend condition here) there⟩
  | unhandled =>
    cases unaliased with
    | handlers construct index inner =>
      cases inner
      exact ⟨rfl, [], .unhandled, rfl⟩
  | handler one more first rest =>
    cases unaliased with
    | handlers construct index inner =>
      cases inner with
      | cons kinds body others =>
        obtain ⟨rfl, own, one', here⟩ := first scope (.block body)
        obtain ⟨same, later, more', there⟩ := rest (walkListed one scope).1 (.handlers _ _ others)
        exact ⟨same, _, .handler one' more', sameEffectsAppend here there⟩

end Collect

section Unaliased

variable {p p' : Program} {h : Hierarchies} {g : CallGraph} (unaliased : p.Unaliased p')
include unaliased

theorem unaliasedSites {r r' : Routine} (changed : r.Rewritten Stmt.BodyUnaliased r')
    {sites : RoutineSites} (ok : routineSites p h r = .ok sites) :
    ∃ sites', routineSites p' h r' = .ok sites' ∧ sites.Interchangeable h sites' := by
  obtain ⟨scope, events, walk, rfl⟩ := routineWalk ok
  obtain ⟨t, related⟩ := Routine.rewrittenStmts ⟨{}, .nil⟩ changed
  obtain ⟨_, events', walk', same⟩ := walkMirrored walk emptyListed (.block related)
  exact ⟨_, rewrittenSites unaliased changed ok walk', RoutineSites.interchangeable ⟨p, h, r⟩ r.id same⟩

theorem unaliasedGraph (built : CallGraph.ofProgram p h = .ok g) :
    ∃ g', CallGraph.ofProgram p' h = .ok g' ∧ g.Interchangeable h g' := by
  obtain ⟨distinct, globals, walked⟩ := CallGraph.ofProgramOk.mp built
  rw [← rewrittenNames unaliased] at distinct
  have step (r r' : Routine) (sites : RoutineSites) (changed : r.Rewritten Stmt.BodyUnaliased r')
      (ok : routineSites p h r = .ok sites) :
      ∃ sites', routineSites p' h r' = .ok sites' ∧ sites.Interchangeable h sites' :=
    unaliasedSites unaliased changed ok
  obtain ⟨routines, rfl, all⟩ := unaliased
  obtain ⟨sites, walked', same⟩ := relatedLift step all walked
  exact ⟨⟨sites⟩, CallGraph.ofProgramOk.mpr ⟨distinct, globals, walked'⟩, same⟩

theorem aliasesTransparent (built : CallGraph.ofProgram p h = .ok g) :
    (∀ options, p'.hierarchies options = p.hierarchies options) ∧
      ∃ g', CallGraph.ofProgram p' h = .ok g' ∧ ∀ config registry,
        let before := Inference.run (inferenceOf config registry p h g)
        let after := Inference.run (inferenceOf config registry p' h g')
        after.table = before.table ∧ after.metrics = before.metrics ∧
          EffectReport.all g' h after.table = EffectReport.all g h before.table := by
  obtain ⟨g', built', same⟩ := unaliasedGraph unaliased built
  refine ⟨?_, g', built', ?_⟩
  · obtain ⟨routines, rfl, _⟩ := unaliased
    exact fun _ => rfl
  · intro config registry before after
    have outcome : after = before := Inference.runInterchanged same
      (Inference.rewrittenSeed unaliased) (Inference.rewrittenHits unaliased)
    rw [outcome]
    exact ⟨rfl, rfl, (CallGraph.interchangedReports same before.table).symm⟩

end Unaliased

def errand (callee : Callee) (value : Expr) : Program :=
  { unit := "errand"
    routines := [
      { id := "main"
        body := some [
          .define "first" none (some (.routine "fetch")) .zero,
          .define "second" none (some value) .zero,
          .expr (.call callee [value] .zero),
          .marker (some "fetched") .zero,
          .assign "first" (.literal "nothing") .zero,
          .expr (.name "first")] },
      { id := "fetch"
        kind := .method
        origin := .foreign
        params := [{ name := "next", type := .proc { effects := { raises := some [] } } }]
        effects := { raises := some ["EOFError"], tags := some [] } }] }

def errandGraph (callee : Callee) (value : Expr) : CallGraph :=
  (CallGraph.ofProgram (errand callee value) .builtin).toOption.getD ⟨[]⟩

/- The last mention of `first` is not one of an alias, so it stays. Only the direct call checks its
argument. -/
theorem errandUnaliased :
    (errand (.binding "second") (.name "first")).Unaliased
        (errand (.routine "fetch") (.routine "fetch")) ∧
      (errandGraph (.binding "second") (.name "first")).sites.map (·.bindings.length) = [0, 0] ∧
      (errandGraph (.routine "fetch") (.routine "fetch")).sites.map (·.bindings.length) = [1, 0] ∧
      ∃ g', CallGraph.ofProgram (errand (.routine "fetch") (.routine "fetch")) .builtin = .ok g' ∧
        (EffectReport.all g' .builtin (Inference.run (inferenceOf (.ofPreset .permissive) {}
          (errand (.routine "fetch") (.routine "fetch")) .builtin g')).table).map
            (·.raises.kinds?) = [some ["EOFError"]] := by
  have unaliased : (errand (.binding "second") (.name "first")).Unaliased
      (errand (.routine "fetch") (.routine "fetch")) := by
    refine ⟨_, rfl, .cons ⟨_, rfl, .some ?_⟩ (.cons ⟨_, rfl, .none⟩ .nil)⟩
    exact ⟨_,
      .cons (.define _ _ _ (.some (.same _))) <|
      .cons (.define _ _ _ (.some (.followed rfl))) <|
      .cons (.expr (.call _ (.followed rfl) (.cons (.followed rfl) .nil))) <|
      .cons (.marker _ _) <|
      .cons (.assign _ _ (.same _)) <|
      .cons (.expr (.same _)) .nil⟩
  have built : CallGraph.ofProgram (errand (.binding "second") (.name "first")) .builtin =
      .ok (errandGraph (.binding "second") (.name "first")) := by decide +kernel
  obtain ⟨_, g', built', same⟩ := aliasesTransparent unaliased built
  refine ⟨unaliased, by decide +kernel, by decide +kernel, g', built', ?_⟩
  rw [(same _ _).2.2]
  decide +kernel

end EffectAudit
