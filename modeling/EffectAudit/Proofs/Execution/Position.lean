import EffectAudit.Proofs.Execution
import EffectAudit.Proofs.Site.Walk
/-! Where a piece of code stands in its routine. The walk of the routine has met it at a place, the
events of that walk are among the routine's, and no handler around the place covers the kind in
question. What is true of a construct is then true of its parts. -/
namespace EffectAudit.Execution
open Collect

variable {u : Setting} {events : List Site.Event} {now : Option Kind} {kind : Kind}

def Collected (u : Setting) (events : List Site.Event) (place : Place) : Code → Prop
  | .expr value => ∃ s own, NotesAll u s place.context value.uses own ∧ own ⊆ events
  | .exprs values => ∃ s own, NotesAll u s place.context (Expr.allUses values) own ∧ own ⊆ events
  | .stmt code => ∃ s s' own, Walk u place s (.stmt code) s' own ∧ own ⊆ events
  | .block body => ∃ s s' own, Walk u place s (.block body) s' own ∧ own ⊆ events
  | .arms arms otherwise => ∃ s s' own, Walk u place s (.arms arms otherwise) s' own ∧ own ⊆ events
  | .attempt body handlers =>
    ∃ (s s₁ s₂ : Scope) (tried handled : List Site.Event),
      Walk u (place.shielded u s.nextConstruct handlers) s.advance (.block body) s₁ tried ∧
      Walk u place s₁ (.handlers s.nextConstruct 0 handlers) s₂ handled ∧
      tried ⊆ events ∧ handled ⊆ events
  | .call id => ∃ edge span, edge ≠ .indirectParam ∧ .edge edge (.routine id) place.context span ∈ events

def Handling (h : Hierarchy) (caught : Coverage) : Option Kind → Prop
  | none => caught = .all
  | some handled => ∃ kinds, caught = .ofHandler h kinds ∧ Coverage.Catches h kinds handled

structure Stands (u : Setting) (events : List Site.Event) (now : Option Kind) (kind : Kind)
    (place : Place) (code : Code) : Prop where
  firstOrder : codeFirstOrder code = true
  collected : Collected u events place code
  handling : Handling u.hierarchies.raises place.caught now
  free : ∀ g ∈ place.context.guards, g.coverage.covers u.hierarchies.raises kind = false

section Stands

variable {place : Place}

theorem standsCall {id : RoutineId} {args : List Expr} {span : Span}
    (stands : Stands u events now kind place (.expr (.call (.routine id) args span))) :
    Stands u events now kind place (.exprs args) ∧ Stands u events now kind place (.call id) := by
  obtain ⟨order, ⟨s, own, noted, inside⟩, handling, free⟩ := stands
  simp only [codeFirstOrder, exprFirstOrder, namesCallee, Bool.true_and] at order
  rw [Expr.uses, Callee.uses, notesAppend] at noted
  obtain ⟨called, passed, met, rest, rfl⟩ := noted
  rw [List.append_subset] at inside
  refine ⟨⟨order, ⟨s, passed, rest, inside.2⟩, handling, free⟩, ⟨rfl, ?_, handling, free⟩⟩
  cases notesSingle.mp met with
  | call found =>
    refine ⟨_, span, ?_, inside.1 (List.mem_cons_self ..)⟩
    split <;> simp

theorem standsExprs {value : Expr} {rest : List Expr}
    (stands : Stands u events now kind place (.exprs (value :: rest))) :
    Stands u events now kind place (.expr value) ∧ Stands u events now kind place (.exprs rest) := by
  obtain ⟨order, ⟨s, own, noted, inside⟩, handling, free⟩ := stands
  simp only [codeFirstOrder, exprsFirstOrder, Bool.and_eq_true] at order
  rw [Expr.allUses, notesAppend] at noted
  obtain ⟨first, others, one, more, rfl⟩ := noted
  rw [List.append_subset] at inside
  exact ⟨⟨order.1, ⟨s, first, one, inside.1⟩, handling, free⟩,
    ⟨order.2, ⟨s, others, more, inside.2⟩, handling, free⟩⟩

theorem plainWalk {s s' : Scope} {code : Stmt} {own : List Site.Event} (simple : code.isPlain = true)
    (walk : Walk u place s (.stmt code) s' own) :
    ∃ noted, NotesAll u s place.context code.uses noted ∧ own = noted ++ closingEvents u place s code := by
  obtain ⟨_, noted, all, _, same⟩ := (plainOk simple).mp (walkOk walk)
  exact ⟨noted, all, same.symm⟩

def onlyValue? : Stmt → Option Expr
  | .expr value => some value
  | .define _ _ value _ => value
  | .assign _ value _ => some value
  | .exit value => value
  | _ => none

theorem onlyValueFirstOrder {stmt : Stmt} {value : Expr} (has : onlyValue? stmt = some value)
    (order : stmtFirstOrder stmt = true) : exprFirstOrder value = true := by
  cases stmt <;> simp only [onlyValue?, Option.some.injEq, reduceCtorEq] at has <;> subst has <;>
    simpa only [stmtFirstOrder, optionalFirstOrder] using order

theorem onlyValueUses {code : Stmt} {value : Expr} (has : onlyValue? code = some value) :
    code.isPlain = true ∧ code.uses = value.uses := by
  cases code <;> simp only [onlyValue?, Option.some.injEq, reduceCtorEq] at has <;> subst has <;>
    exact ⟨rfl, rfl⟩

theorem standsValue {code : Stmt} {value : Expr} (has : onlyValue? code = some value)
    (stands : Stands u events now kind place (.stmt code)) :
    Stands u events now kind place (.expr value) := by
  obtain ⟨order, ⟨s, s', own, walk, inside⟩, handling, free⟩ := stands
  obtain ⟨simple, uses⟩ := onlyValueUses has
  obtain ⟨noted, all, rfl⟩ := plainWalk simple walk
  rw [List.append_subset] at inside
  exact ⟨onlyValueFirstOrder has order, ⟨s, noted, uses ▸ all, inside.1⟩, handling, free⟩

theorem standsRaise {raised : Option Kind} {args : List Expr} {span : Span}
    (stands : Stands u events now kind place (.stmt (.raise raised args span))) :
    Stands u events now kind place (.exprs args) ∧
      .raise (raisedAt place raised) place.context span ∈ events := by
  obtain ⟨order, ⟨s, s', own, walk, inside⟩, handling, free⟩ := stands
  simp only [codeFirstOrder, stmtFirstOrder] at order
  obtain ⟨passed, arguments, rfl⟩ := plainWalk rfl walk
  rw [List.append_subset] at inside
  exact ⟨⟨order, ⟨s, passed, arguments, inside.1⟩, handling, free⟩, inside.2 (List.mem_singleton_self _)⟩

theorem standsBranch {arms : List BranchArm} {otherwise : Option (List Stmt)}
    (stands : Stands u events now kind place (.stmt (.branch arms otherwise))) :
    Stands u events now kind place (.arms arms otherwise) := by
  obtain ⟨order, ⟨s, s', own, walk, inside⟩, handling, free⟩ := stands
  simp only [codeFirstOrder, stmtFirstOrder] at order
  cases walk with
  | plain simple => exact absurd simple Bool.false_ne_true
  | branch chain => exact ⟨order, ⟨s, s', own, chain, inside⟩, handling, free⟩

theorem standsArms {cond : Expr} {body : List Stmt} {rest : List BranchArm}
    {otherwise : Option (List Stmt)}
    (stands : Stands u events now kind place (.arms (.mk cond body :: rest) otherwise)) :
    Stands u events now kind place (.expr cond) ∧
      (∃ taken, Stands u events now kind taken (.block body)) ∧
      ∃ skipped, Stands u events now kind skipped (.arms rest otherwise) := by
  obtain ⟨order, ⟨s, s', own, walk, inside⟩, handling, free⟩ := stands
  simp only [codeFirstOrder, armsFirstOrder, Bool.and_eq_true] at order
  obtain ⟨⟨⟨inCond, inBody⟩, inRest⟩, inElse⟩ := order
  have others : codeFirstOrder (.arms rest otherwise) = true := by
    simp only [codeFirstOrder, Bool.and_eq_true]
    exact ⟨inRest, inElse⟩
  cases walk with
  | arm tested taken more =>
    simp only [List.append_subset] at inside
    obtain ⟨⟨test, first⟩, later⟩ := inside
    exact ⟨⟨inCond, ⟨s, _, tested, test⟩, handling, free⟩,
      ⟨_, inBody, ⟨_, _, _, taken, first⟩, handling, free⟩,
      ⟨_, others, ⟨_, _, _, more, later⟩, handling, free⟩⟩

theorem standsElse {body : List Stmt} (stands : Stands u events now kind place (.arms [] (some body))) :
    Stands u events now kind place (.block body) := by
  obtain ⟨order, ⟨s, s', own, walk, inside⟩, handling, free⟩ := stands
  simp only [codeFirstOrder, armsFirstOrder, elseFirstOrder, Bool.true_and] at order
  cases walk with
  | skipped last =>
    cases last with
    | present block => exact ⟨order, ⟨s, s', own, block, inside⟩, handling, free⟩

theorem standsLoop {cond : Expr} {body : List Stmt}
    (stands : Stands u events now kind place (.stmt (.loop cond body))) :
    Stands u events now kind place (.expr cond) ∧
      ∃ inner, Stands u events now kind inner (.block body) := by
  obtain ⟨order, ⟨s, s', own, walk, inside⟩, handling, free⟩ := stands
  simp only [codeFirstOrder, stmtFirstOrder, Bool.and_eq_true] at order
  cases walk with
  | plain simple => exact absurd simple Bool.false_ne_true
  | loop tested block =>
    rw [List.append_subset] at inside
    exact ⟨⟨order.1, ⟨s, _, tested, inside.1⟩, handling, free⟩,
      ⟨_, order.2, ⟨_, _, _, block, inside.2⟩, handling, free⟩⟩

theorem standsBlock {body : List Stmt} (stands : Stands u events now kind place (.stmt (.block body))) :
    Stands u events now kind place (.block body) := by
  obtain ⟨order, ⟨s, s', own, walk, inside⟩, handling, free⟩ := stands
  simp only [codeFirstOrder, stmtFirstOrder] at order
  cases walk with
  | plain simple => exact absurd simple Bool.false_ne_true
  | nested block => exact ⟨order, ⟨s, s', own, block, inside⟩, handling, free⟩

theorem standsCons {code : Stmt} {rest : List Stmt}
    (stands : Stands u events now kind place (.block (code :: rest))) :
    Stands u events now kind place (.stmt code) ∧ Stands u events now kind place (.block rest) := by
  obtain ⟨order, ⟨s, s', own, walk, inside⟩, handling, free⟩ := stands
  simp only [codeFirstOrder, blockFirstOrder, Bool.and_eq_true] at order
  cases walk with
  | cons one more =>
    rw [List.append_subset] at inside
    exact ⟨⟨order.1, ⟨_, _, _, one, inside.1⟩, handling, free⟩,
      ⟨order.2, ⟨_, _, _, more, inside.2⟩, handling, free⟩⟩

theorem handlerWalk {construct index : Nat} {s s' : Scope} {handlers : List Handler}
    {own : List Site.Event} (walk : Walk u place s (.handlers construct index handlers) s' own)
    {kinds : List Kind} {body : List Stmt} (listed : .mk kinds body ∈ handlers) :
    ∃ position before after inner, inner ⊆ own ∧
      Walk u (place.handling u construct position kinds) before (.block body) after inner := by
  induction handlers generalizing index s own with
  | nil => simp at listed
  | cons handler rest ih =>
    cases walk with
    | handler one more =>
      rcases List.mem_cons.mp listed with same | later
      · cases same
        exact ⟨index, _, _, _, List.subset_append_left .., one⟩
      · obtain ⟨position, before, after, inner, among, found⟩ := ih more later
        exact ⟨position, before, after, inner, List.Subset.trans among (List.subset_append_right ..), found⟩

theorem handlerFirstOrder {handlers : List Handler} (order : handlersFirstOrder handlers = true)
    {kinds : List Kind} {body : List Stmt} (listed : .mk kinds body ∈ handlers) :
    blockFirstOrder body = true := by
  induction handlers with
  | nil => simp at listed
  | cons handler rest ih =>
    cases handler with
    | mk otherKinds otherBody =>
      simp only [handlersFirstOrder, Bool.and_eq_true] at order
      rcases List.mem_cons.mp listed with same | later
      · cases same
        exact order.1
      · exact ih order.2 later

theorem standsTried {body : List Stmt} {handlers : List Handler}
    (stands : Stands u events now kind place (.attempt body handlers))
    (uncaught : ∀ handler ∈ handlers, ¬Coverage.Catches u.hierarchies.raises handler.kinds kind) :
    ∃ inner, Stands u events now kind inner (.block body) := by
  obtain ⟨order, ⟨s, s₁, s₂, tried, handled, attempt, _, inside, _⟩, handling, free⟩ := stands
  simp only [codeFirstOrder, Bool.and_eq_true] at order
  refine ⟨_, order.1, ⟨_, s₁, tried, attempt, inside⟩, handling, ?_⟩
  intro g member
  rcases List.mem_append.mp member with around | own
  · exact free g around
  · simp only [Place.coverages, List.map_map, List.mem_map] at own
    obtain ⟨handler, listed, rfl⟩ := own
    rw [Bool.eq_false_iff]
    exact fun covers => uncaught handler listed (Coverage.coversHandler.mp covers)

theorem standsHandler {body : List Stmt} {handlers : List Handler}
    (stands : Stands u events now kind place (.attempt body handlers)) {kinds : List Kind}
    {handler : List Stmt} (listed : .mk kinds handler ∈ handlers) {handled : Kind}
    (catches : Coverage.Catches u.hierarchies.raises kinds handled) :
    ∃ inner, Stands u events (some handled) kind inner (.block handler) := by
  obtain ⟨order, ⟨s, s₁, s₂, tried, caught, _, met, _, inside⟩, _, free⟩ := stands
  simp only [codeFirstOrder, Bool.and_eq_true] at order
  obtain ⟨position, before, after, own, among, found⟩ := handlerWalk met listed
  exact ⟨_, handlerFirstOrder order.2 listed,
    ⟨before, after, own, found, List.Subset.trans among inside⟩, ⟨kinds, rfl, catches⟩, free⟩

theorem standsProtect {body : List Stmt} {handlers : List Handler} {cleanup : Option (List Stmt)}
    (stands : Stands u events now kind place (.stmt (.protect body handlers cleanup))) :
    Stands u events now kind place (.attempt body handlers) ∧
      ∀ last, cleanup = some last → ∃ after, Stands u events now kind after (.block last) := by
  obtain ⟨order, ⟨s, s', own, walk, inside⟩, handling, free⟩ := stands
  simp only [codeFirstOrder, stmtFirstOrder, Bool.and_eq_true] at order
  have attempt : codeFirstOrder (.attempt body handlers) = true := by
    simpa only [codeFirstOrder, Bool.and_eq_true] using order.1
  cases walk with
  | plain simple => exact absurd simple Bool.false_ne_true
  | protect admitted tried handled cleaned =>
    simp only [List.append_subset] at inside
    obtain ⟨⟨first, second⟩, third⟩ := inside
    refine ⟨⟨attempt, ⟨s, _, _, _, _, tried, handled, first, second⟩, handling, free⟩, ?_⟩
    intro last same
    cases same
    cases cleaned with
    | present block => exact ⟨_, order.2, ⟨_, _, _, block, third⟩, handling, free⟩

end Stands
end EffectAudit.Execution
