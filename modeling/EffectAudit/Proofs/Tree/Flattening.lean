import EffectAudit.Proofs.Propagation
import EffectAudit.Proofs.Site.Numbering
import EffectAudit.Proofs.Tree
/-! Flattening a body into sites loses nothing. The walk notes at every site which handlers are around
it, and the sum takes them off site by site. Taking handlers off distributes over unions and does not
depend on their order, so the sum over the sites of a piece of code is what the tree says of it, less
what the handlers around that piece take off. -/
namespace EffectAudit

namespace Contribution

variable (h : Hierarchies) (table : EffectTable) (filter : SiteFilter) (category : Category)

def ofEvent : Site.Event → EffectSet
  | .edge kind target context span =>
    escaping h filter category context (ofEdge h table category ⟨0, kind, target, context, span⟩)
  | .raise raised context span =>
    match category with
    | .tags => ∅
    | .raises => escaping h filter .raises context (ofRaise h ⟨0, raised, context, span⟩)
  | .marker _ _ _ => ∅
  | .binding _ _ _ _ => ∅

def ofEvents (events : List Site.Event) : EffectSet :=
  (events.map (ofEvent h table filter category)).foldl .union ∅

variable {h table filter category}

theorem ofEventsHolds {events : List Site.Event} {x : Item} :
    (ofEvents h table filter category events).Holds x ↔
      ∃ e ∈ events, (ofEvent h table filter category e).Holds x := by
  unfold ofEvents
  rw [EffectSet.foldUnionHolds]
  simp

@[simp] theorem ofEventsNil : ofEvents h table filter category [] = ∅ := rfl

theorem ofEventsSingle (e : Site.Event) :
    ofEvents h table filter category [e] = ofEvent h table filter category e := by
  simp [ofEvents]

theorem ofEventsAppend (a b : List Site.Event) :
    ofEvents h table filter category (a ++ b) =
      (ofEvents h table filter category a).union (ofEvents h table filter category b) := by
  apply EffectSet.eqOfHolds
  intro x
  simp only [ofEventsHolds, EffectSet.unionHolds, List.mem_append, or_and_right, exists_or]

def admitted (filter : SiteFilter) (events : List Site.Event) : List Site.Event :=
  (events.zipIdx.filter fun (event, ordinal) => filter.admits ordinal (event.context?.getD {})).map
    Prod.fst

theorem admittedAll (events : List Site.Event) : admitted .all events = events := by
  simp [admitted, SiteFilter.admits]

theorem memAdmitted {events : List Site.Event} {event : Site.Event} :
    event ∈ admitted filter events ↔
      ∃ ordinal, events[ordinal]? = some event ∧
        filter.admits ordinal (event.context?.getD {}) = true := by
  simp [admitted, List.mem_filter, List.mk_mem_zipIdx_iff_getElem?]

theorem accumulateEvents (id : RoutineId) (events : List Site.Event) :
    accumulate h table (.ofEvents id events) category filter =
      ofEvents h table filter category (admitted filter events) := by
  apply EffectSet.eqOfHolds
  intro x
  rw [accumulate, EffectSet.foldUnionHolds, ofEventsHolds]
  constructor
  · rintro (nothing | ⟨set, listed, held⟩)
    · exact (EffectSet.emptyHolds nothing).elim
    · rcases List.mem_append.mp listed with edges | raises
      · obtain ⟨site, kept, rfl⟩ := List.mem_map.mp edges
        obtain ⟨there, admits⟩ := List.mem_filter.mp kept
        obtain ⟨⟨event, ordinal⟩, numbered, same⟩ := List.mem_filterMap.mp there
        cases event <;> cases same
        exact ⟨_, memAdmitted.mpr ⟨ordinal, List.mk_mem_zipIdx_iff_getElem?.mp numbered, admits⟩, held⟩
      · cases category with
        | tags => simp [ofRaises] at raises
        | raises =>
          obtain ⟨site, kept, rfl⟩ := List.mem_map.mp raises
          obtain ⟨there, admits⟩ := List.mem_filter.mp kept
          obtain ⟨⟨event, ordinal⟩, numbered, same⟩ := List.mem_filterMap.mp there
          cases event <;> cases same
          exact ⟨_, memAdmitted.mpr ⟨ordinal, List.mk_mem_zipIdx_iff_getElem?.mp numbered, admits⟩, held⟩
  · rintro ⟨event, member, held⟩
    right
    obtain ⟨ordinal, place, admits⟩ := memAdmitted.mp member
    have numbered := List.mk_mem_zipIdx_iff_getElem?.mpr place
    cases event with
    | edge kind target context span =>
      have listed : ⟨ordinal, kind, target, context, span⟩ ∈ (RoutineSites.ofEvents id events).edges :=
        List.mem_filterMap.mpr ⟨_, numbered, rfl⟩
      refine ⟨_, List.mem_append_left _ (List.mem_map_of_mem (List.mem_filter.mpr ⟨listed, admits⟩)), ?_⟩
      exact held
    | raise raised context span =>
      cases category with
      | tags => exact (EffectSet.emptyHolds held).elim
      | raises =>
        have listed : ⟨ordinal, raised, context, span⟩ ∈ (RoutineSites.ofEvents id events).raises :=
          List.mem_filterMap.mpr ⟨_, numbered, rfl⟩
        refine ⟨_, List.mem_append_right _ (List.mem_map_of_mem (List.mem_filter.mpr ⟨listed, admits⟩)), ?_⟩
        exact held
    | marker label context span => exact (EffectSet.emptyHolds held).elim
    | binding target expected value span => exact (EffectSet.emptyHolds held).elim

end Contribution

theorem EffectSet.uncaughtHolds {h : Hierarchy} {handlers : List Handler} {s : EffectSet} {x : Item} :
    (s.uncaught h handlers).Holds x ↔
      ∃ y, s.Holds y ∧ (∀ handler ∈ handlers, (Coverage.ofHandler h handler.kinds).Lets h y) ∧
        y.Yields x := by
  cases s with
  | unknown =>
    unfold uncaught
    dsimp only
    split
    · next caught =>
      obtain ⟨handler, listed, all⟩ := List.any_eq_true.mp caught
      simp only [emptyHolds, false_iff]
      rintro ⟨y, _, lets, _⟩
      have stopped := lets handler listed
      rw [of_decide_eq_true all] at stopped
      exact stopped
    · next free =>
      simp only [unknownHolds, true_and, true_iff]
      refine ⟨.anything, ?_, .inl rfl⟩
      intro handler listed
      rw [Coverage.anythingLet]
      intro all
      exact free (List.any_eq_true.mpr ⟨handler, listed, decide_eq_true all⟩)
  | known kinds =>
    constructor
    · intro member
      cases x with
      | anything => exact member.elim
      | kind kind =>
        obtain ⟨inside, kept⟩ := NameSet.memFilter.mp member
        refine ⟨.kind kind, inside, ?_, .inr rfl⟩
        intro handler listed
        rw [Coverage.kindLet]
        simpa using List.all_eq_true.mp kept handler listed
    · rintro ⟨y, inside, lets, rfl | rfl⟩
      · exact inside.elim
      · cases y with
        | anything => exact inside.elim
        | kind kind =>
          refine NameSet.memFilter.mpr ⟨inside, List.all_eq_true.mpr ?_⟩
          intro handler listed
          simpa using Coverage.kindLet.mp (lets handler listed)

namespace Tree
open Collect

variable {u : Setting} {table : EffectTable} {filter : SiteFilter} {category : Category}

/- Inside the body of a `try` its handlers stand behind those further out. Whether they are taken off
first or last makes no difference. -/
theorem escapingTry (context : Site.Context) {construct : Nat}
    (applies : ∀ coverage, filter.applies ⟨construct, coverage⟩ = true) (handlers : List Handler)
    (inside : EffectSet) :
    Contribution.escaping u.hierarchies filter category
        ((context.enter construct .tryBody).guarded construct
          (handlers.map fun handler => .ofHandler u.hierarchies.raises handler.kinds)) inside =
      Contribution.escaping u.hierarchies filter category context
        (throughHandlers u category handlers inside) := by
  cases category with
  | tags => rfl
  | raises =>
    apply EffectSet.eqOfHolds
    intro x
    simp only [Contribution.escapingHolds, throughHandlers, EffectSet.uncaughtHolds, Item.Escapes,
      forall_true_left, Site.Context.guarded, Site.Context.enter, List.map_map]
    constructor
    · rintro ⟨y, held, lets, yields⟩
      refine ⟨y, ⟨y, held, ?_, .inr rfl⟩, ?_, yields⟩
      · intro handler listed
        exact lets ⟨construct, _⟩ (List.mem_append_right _ (List.mem_map.mpr ⟨handler, listed, rfl⟩))
          (applies _)
      · intro g around
        exact lets g (List.mem_append_left _ around)
    · rintro ⟨z, ⟨y, held, own, onward⟩, outer, yields⟩
      refine ⟨y, held, ?_, ?_⟩
      · intro g around active
        rcases List.mem_append.mp around with out | inner
        · rcases onward with rfl | rfl
          · exact Coverage.letsAnything (outer g out active)
          · exact outer g out active
        · obtain ⟨handler, listed, rfl⟩ := List.mem_map.mp inner
          exact own handler listed
      · rcases onward with rfl | rfl
        · exact .inl rfl
        · exact yields

def unnumbered (s : Scope) : Scope := { s with nextConstruct := 0 }

theorem mentionUnnumbered (s : Scope) (name : String) :
    mentionTarget u (unnumbered s) name = mentionTarget u s name := rfl

theorem callUnnumbered (s : Scope) (name : String) :
    callTarget u (unnumbered s) name = callTarget u s name := rfl

theorem calledName (s : Scope) (name : String) (context : Site.Context) (span : Span) :
    Contribution.ofEdge u.hierarchies table category
        ⟨0, (callTarget u s name).1, (callTarget u s name).2, context, span⟩ =
      Contribution.ofTarget u.hierarchies table category (callTarget u s name).2 := by
  unfold callTarget
  split
  · rfl
  · rfl

theorem edgeAdds {kind : EdgeKind} (direct : kind ≠ .indirectParam) (target : EdgeTarget)
    (context : Site.Context) (span : Span) :
    Contribution.ofEvent u.hierarchies table filter category (.edge kind target context span) =
      Contribution.escaping u.hierarchies filter category context
        (Contribution.ofTarget u.hierarchies table category target) := by
  unfold Contribution.ofEvent Contribution.ofEdge
  dsimp only
  rw [if_neg direct]

theorem bindingsAddNothing {events : List Site.Event} (only : OnlyBindings events) :
    Contribution.ofEvents u.hierarchies table filter category events = ∅ := by
  apply EffectSet.eqOfHolds
  intro x
  rw [Contribution.ofEventsHolds, iff_false_right EffectSet.emptyHolds]
  intro given
  obtain ⟨event, member, held⟩ := given
  obtain ⟨target, expected, value, span, rfl⟩ := only event member
  exact EffectSet.emptyHolds held

def useEffects (u : Setting) (table : EffectTable) (category : Category) (s : Scope) : Use → EffectSet
  | .name name =>
    match mentionTarget u s name with
    | none => ∅
    | some target => Contribution.ofTarget u.hierarchies table category target
  | .routine id => table.referenceSet id category
  | .call id _ _ => table.referenceSet id category
  | .callName name _ => Contribution.ofTarget u.hierarchies table category (callTarget u s name).2
  | .callValue _ => .unknown

def usesEffects (u : Setting) (table : EffectTable) (category : Category) (s : Scope) :
    List Use → EffectSet
  | [] => ∅
  | use :: rest => (useEffects u table category s use).union (usesEffects u table category s rest)

theorem usesEffectsAppend (s : Scope) (first second : List Use) :
    usesEffects u table category s (first ++ second) =
      (usesEffects u table category s first).union (usesEffects u table category s second) := by
  induction first with
  | nil => exact (EffectSet.emptyUnion _).symm
  | cons use rest ih => rw [List.cons_append, usesEffects, usesEffects, ih, EffectSet.unionAssoc]

mutual

theorem exprUsed (s : Scope) (value : Expr) :
    exprEffects u table category s value = usesEffects u table category s value.uses := by
  cases value with
  | nil => rw [exprEffects, Expr.uses, usesEffects]
  | literal text => rw [exprEffects, Expr.uses, usesEffects]
  | name name => exact (EffectSet.unionEmpty _).symm
  | routine id => rw [exprEffects, Expr.uses, usesEffects, usesEffects, EffectSet.unionEmpty, useEffects]
  | call callee args span =>
    rw [exprEffects, Expr.uses, usesEffectsAppend, calleeUsed s callee args span, exprsUsed s args]

theorem calleeUsed (s : Scope) (callee : Callee) (args : List Expr) (span : Span) :
    calleeEffects u table category s callee = usesEffects u table category s (callee.uses args span) := by
  cases callee with
  | routine id =>
    rw [calleeEffects, Callee.uses, usesEffects, usesEffects, EffectSet.unionEmpty, useEffects]
  | binding name =>
    rw [calleeEffects, Callee.uses, usesEffects, usesEffects, EffectSet.unionEmpty, useEffects]
  | computed value => rw [calleeEffects, Callee.uses, usesEffects, exprUsed s value, useEffects]

theorem exprsUsed (s : Scope) (values : List Expr) :
    exprsEffects u table category s values = usesEffects u table category s (Expr.allUses values) := by
  cases values with
  | nil => rw [exprsEffects, Expr.allUses, usesEffects]
  | cons value rest =>
    rw [exprsEffects, Expr.allUses, usesEffectsAppend, exprUsed s value, exprsUsed s rest]

end

theorem notesFlattened {s : Scope} {context : Site.Context} {uses : List Use} {events : List Site.Event}
    (noted : NotesAll u s context uses events) :
    Contribution.ofEvents u.hierarchies table filter category events =
      Contribution.escaping u.hierarchies filter category context
        (usesEffects u table category (unnumbered s) uses) := by
  induction noted with
  | nil => simp [usesEffects]
  | cons one more ih =>
    rw [Contribution.ofEventsAppend, usesEffects, Contribution.escapingUnion, ih]
    congr 1
    cases one with
    | unmeant meant =>
      rw [useEffects, mentionUnnumbered, meant]
      simp
    | mention meant =>
      rw [useEffects, mentionUnnumbered, meant, Contribution.ofEventsSingle]
      rfl
    | routine found =>
      rw [Contribution.ofEventsSingle]
      rfl
    | call found =>
      rw [← List.singleton_append, Contribution.ofEventsAppend, bindingsAddNothing (argumentEventsOnly _ _ _),
        EffectSet.unionEmpty, Contribution.ofEventsSingle, edgeAdds (by split <;> simp)]
      rfl
    | callName =>
      rw [useEffects, Contribution.ofEventsSingle, callUnnumbered, ← calledName s _ context _]
      rfl
    | callValue =>
      rw [Contribution.ofEventsSingle]
      rfl

def closingEffects (u : Setting) (category : Category) (caught : Coverage) : Stmt → EffectSet
  | .raise kind _ _ => raiseEffects u category caught kind
  | _ => ∅

theorem closingFlattened {place : Place} (s : Scope) (code : Stmt) :
    Contribution.ofEvents u.hierarchies table filter category (closingEvents u place s code) =
      Contribution.escaping u.hierarchies filter category place.context
        (closingEffects u category place.caught code) := by
  cases code with
  | raise kind args span =>
    rw [closingEvents, Contribution.ofEventsSingle]
    cases category with
    | tags => rfl
    | raises => cases kind <;> rfl
  | marker label span =>
    rw [closingEvents, closingEffects, Contribution.escapingEmpty, Contribution.ofEventsSingle]
    · rfl
    · simp
  | _ =>
    exact (bindingsAddNothing (closingOnly (by simp) (by simp))).trans (Contribution.escapingEmpty _).symm

theorem settledUnnumbered (s : Scope) (code : Stmt) :
    settled (unnumbered s) code = unnumbered (settled s code) := by
  unfold settled
  split
  · rfl
  · next name value span =>
    have same : (unnumbered s).find? name = s.find? name := rfl
    unfold Scope.reassign
    rw [same]
    split <;> rfl
  · rfl

theorem plainEffects {code : Stmt} (simple : code.isPlain = true) (caught : Coverage) (s : Scope) :
    stmtEffects u table category caught s code =
      (settled s code,
        (usesEffects u table category s code.uses).union (closingEffects u category caught code)) := by
  have optional (value : Option Expr) : optionalEffects u table category s value =
      usesEffects u table category s (Expr.optionalUses value) := by
    cases value with
    | none => rfl
    | some value => exact exprUsed s value
  cases code, simple using Stmt.plainCases with
  | expr value => simp [stmtEffects, settled, closingEffects, Stmt.uses, exprUsed]
  | define name type value span => simp [stmtEffects, settled, closingEffects, Stmt.uses, optional]
  | assign name value span => simp [stmtEffects, settled, closingEffects, Stmt.uses, exprUsed]
  | raise kind args span => simp [stmtEffects, settled, closingEffects, Stmt.uses, exprsUsed]
  | exit value => simp [stmtEffects, settled, closingEffects, Stmt.uses, optional]
  | marker label span => simp [stmtEffects, settled, closingEffects, Stmt.uses, usesEffects]

def pieceEffects (u : Setting) (table : EffectTable) (category : Category) (caught : Coverage) (s : Scope) :
    Piece → Scope × EffectSet
  | .stmt code => stmtEffects u table category caught s code
  | .block body => blockEffects u table category caught s body
  | .optional body => elseEffects u table category caught s body
  | .arms arms otherwise => stmtEffects u table category caught s (.branch arms otherwise)
  | .handlers _ _ handlers => handlersEffects u table category s handlers

theorem armsEffectsCons (caught : Coverage) (s : Scope) (cond : Expr) (body : List Stmt)
    (rest : List BranchArm) (otherwise : Option (List Stmt)) :
    pieceEffects u table category caught s (.arms (.mk cond body :: rest) otherwise) =
      let first := blockEffects u table category caught s body
      let others := pieceEffects u table category caught first.1 (.arms rest otherwise)
      (others.1, ((exprEffects u table category s cond).union first.2).union others.2) := by
  simp only [pieceEffects, stmtEffects, armsEffects, EffectSet.unionAssoc]

/- What the walk hands on is what the tree says: the same locals, and events that add up to the
effects, less what the handlers around the place take off. -/
structure Agrees (u : Setting) (table : EffectTable) (filter : SiteFilter) (category : Category)
    (context : Site.Context) (s : Scope) (events : List Site.Event) (tree : Scope × EffectSet) : Prop where
  scope : tree.1 = unnumbered s
  sum : Contribution.ofEvents u.hierarchies table filter category events =
    Contribution.escaping u.hierarchies filter category context tree.2

section Agrees

variable {context : Site.Context} {s s' : Scope} {events first second : List Site.Event}
  {tree one two : Scope × EffectSet}

theorem agreesAppend (before : Agrees u table filter category context s first one)
    (after : Agrees u table filter category context s' second two) :
    Agrees u table filter category context s' (first ++ second) (two.1, one.2.union two.2) := by
  refine ⟨after.scope, ?_⟩
  rw [Contribution.ofEventsAppend, Contribution.escapingUnion, before.sum, after.sum]

theorem agreesNothing (context : Site.Context) (s : Scope) :
    Agrees u table filter category context s [] (unnumbered s, ∅) :=
  ⟨rfl, by simp⟩

theorem agreesGuards (other : Site.Context)
    (agrees : Agrees u table filter category context s events tree)
    (same : context.guards = other.guards) : Agrees u table filter category other s events tree :=
  ⟨agrees.scope, agrees.sum.trans (Contribution.escapingGuards same _)⟩

theorem agreesTry {place : Place} {construct : Nat} {handlers : List Handler}
    (applies : ∀ coverage, filter.applies ⟨construct, coverage⟩ = true)
    (inside : Agrees u table filter category (place.shielded u construct handlers).context s events tree) :
    Agrees u table filter category place.context s events
      (tree.1, throughHandlers u category handlers tree.2) :=
  ⟨inside.scope, inside.sum.trans (escapingTry place.context applies handlers tree.2)⟩

theorem agreesValue {value : Expr} (noted : NotesAll u s context value.uses events) :
    Agrees u table filter category context s events
      (unnumbered s, exprEffects u table category (unnumbered s) value) :=
  ⟨rfl, by rw [exprUsed, notesFlattened noted]⟩

end Agrees

def AppliesIn (filter : SiteFilter) (low high : Nat) : Prop :=
  ∀ construct coverage, low ≤ construct → construct < high → filter.applies ⟨construct, coverage⟩ = true

theorem appliesWithin {low low' high high' : Nat} (applies : AppliesIn filter low high)
    (lower : low ≤ low') (upper : high' ≤ high) : AppliesIn filter low' high' :=
  fun construct coverage above below => applies construct coverage (by omega) (by omega)

theorem appliesAll (low high : Nat) : AppliesIn .all low high := fun _ _ _ _ => rfl

theorem walkFlattened {place : Place} {s s' : Scope} {piece : Piece} {events : List Site.Event}
    (walk : Walk u place s piece s' events) (applies : AppliesIn filter s.nextConstruct s'.nextConstruct) :
    Agrees u table filter category place.context s' events
      (pieceEffects u table category place.caught (unnumbered s) piece) := by
  induction walk with
  | plain simple admitted noted =>
    rw [pieceEffects, plainEffects simple, settledUnnumbered]
    refine ⟨rfl, ?_⟩
    rw [Contribution.ofEventsAppend, Contribution.escapingUnion, notesFlattened noted, closingFlattened]
  | branch chain ih => exact ih applies
  | @loop place s s' cond body test round tested inside ih =>
    have again := agreesGuards place.context
      (ih (appliesWithin applies (Nat.le_succ _) (Nat.le_refl _))) rfl
    rw [pieceEffects, stmtEffects]
    exact agreesAppend (agreesValue tested) again
  | @protect place s s₁ s₂ s₃ body handlers cleanup first second third admitted tried handled cleaned
      attempt handler last =>
    have started : s.nextConstruct < s₁.nextConstruct := walkGrows tried
    have passed := walkGrows handled
    have ended := walkGrows cleaned
    have out := agreesTry (fun coverage => applies _ coverage (Nat.le_refl _) (by omega))
      (attempt (appliesWithin applies (Nat.le_succ _) (by omega)))
    have caught := handler (appliesWithin applies (by omega) ended)
    have after := agreesGuards place.context
      (last (appliesWithin applies (by omega) (Nat.le_refl _))) rfl
    have bodyScope : (blockEffects u table category place.caught (unnumbered s) body).1 = unnumbered s₁ :=
      out.scope
    have handlersScope : (handlersEffects u table category (unnumbered s₁) handlers).1 = unnumbered s₂ :=
      caught.scope
    rw [pieceEffects, stmtEffects, bodyScope, handlersScope]
    exact agreesAppend (agreesAppend out caught) after
  | nested inside ih =>
    rw [pieceEffects, stmtEffects]
    exact ih applies
  | nil => exact agreesNothing _ _
  | @cons place s s₁ s₂ code rest own others one more first later =>
    have before := first (appliesWithin applies (Nat.le_refl _) (walkGrows more))
    have after := later (appliesWithin applies (walkGrows one) (Nat.le_refl _))
    have scope : (stmtEffects u table category place.caught (unnumbered s) code).1 = unnumbered s₁ :=
      before.scope
    rw [pieceEffects, blockEffects, scope]
    exact agreesAppend before after
  | absent => exact agreesNothing _ _
  | present inside ih => exact ih applies
  | skipped last ih =>
    have after := ih applies
    simpa [pieceEffects, stmtEffects, armsEffects] using after
  | @arm place s s₁ s₂ cond body rest otherwise test own others tested taken more first later =>
    have started : s.nextConstruct < s₁.nextConstruct := walkGrows taken
    have inside := agreesGuards place.context
      (first (appliesWithin applies (Nat.le_succ _) (walkGrows more))) rfl
    have after := agreesGuards place.context
      (later (appliesWithin applies (Nat.le_of_lt started) (Nat.le_refl _))) rfl
    have scope : (blockEffects u table category place.caught (unnumbered s) body).1 = unnumbered s₁ :=
      inside.scope
    rw [armsEffectsCons]
    dsimp only
    rw [scope]
    exact agreesAppend (agreesAppend (agreesValue tested) inside) after
  | unhandled => exact agreesNothing _ _
  | @handler place s s₁ s₂ construct index kinds body rest own others one more first later =>
    have inside := agreesGuards place.context
      (first (appliesWithin applies (Nat.le_refl _) (walkGrows more))) rfl
    have after := later (appliesWithin applies (walkGrows one) (Nat.le_refl _))
    have scope : (blockEffects u table category (.ofHandler u.hierarchies.raises kinds) (unnumbered s)
        body).1 = unnumbered s₁ := inside.scope
    rw [pieceEffects, handlersEffects, scope]
    exact agreesAppend inside after

theorem flattenedSitesMeanTheTree {program : Program} {h : Hierarchies} {g : CallGraph}
    (built : CallGraph.ofProgram program h = .ok g) {r : Routine} (listed : r ∈ program.routines)
    (table : EffectTable) (category : Category) :
    ∃ sites, routineSites program h r = .ok sites ∧ g.sites? r.id = some sites ∧
      Contribution.accumulate h table sites category .all =
        routineEffects ⟨program, h, r⟩ table category := by
  obtain ⟨sites, found, walked⟩ := CallGraph.sitesOfRoutine built listed
  refine ⟨sites, walked, found, ?_⟩
  obtain ⟨scope, events, body, rfl⟩ := routineWalk walked
  have whole : Agrees ⟨program, h, r⟩ table .all category {} scope events
      (blockEffects ⟨program, h, r⟩ table category .all {} (r.body.getD [])) :=
    walkFlattened body (appliesAll _ _)
  have outside (set : EffectSet) : Contribution.escaping h .all category {} set = set := by
    cases category <;> rfl
  rw [Contribution.accumulateEvents, Contribution.admittedAll, whole.sum, outside]
  rfl

/- A call through a local that stands for a routine and a raise, both protected, a bare raise in the
handler, and a raise in the cleanup. The handler covers what the callee raises but not `KeyError`. -/
def salvage : Program :=
  { unit := "salvage"
    routines := [
      { id := "salvage"
        body := some [
          .protect
            [.define "step" none (some (.routine "fetch")) .zero,
              .expr (.call (.binding "step") [] .zero), .raise (some "KeyError") [] .zero]
            [.mk ["IOError"] [.raise none [] .zero]]
            (some [.raise (some "Timeout") [] .zero])] },
      { id := "fetch"
        origin := .foreign
        effects := { raises := some ["EOFError"], tags := some [] } }] }

def salvageTable : EffectTable :=
  EffectTable.empty.insert
    { routine := "fetch"
      raises := .ofDeclared (.known (.ofList ["EOFError"]))
      tags := .ofDeclared ∅
      analyzed := false }

theorem salvageFlattened :
    ∃ r ∈ salvage.routines, r.id = "salvage" ∧
      routineEffects ⟨salvage, .builtin, r⟩ salvageTable .raises =
        .known (.ofList ["IOError", "KeyError", "Timeout"]) ∧
      ∃ sites, routineSites salvage .builtin r = .ok sites ∧
        Contribution.accumulate .builtin salvageTable sites .raises .all =
          routineEffects ⟨salvage, .builtin, r⟩ salvageTable .raises := by
  have built : CallGraph.ofProgram salvage .builtin =
      .ok ((CallGraph.ofProgram salvage .builtin).toOption.getD ⟨[]⟩) := by decide +kernel
  obtain ⟨sites, walked, _, same⟩ := flattenedSitesMeanTheTree built
    (List.get_mem salvage.routines ⟨0, by decide⟩) salvageTable .raises
  exact ⟨_, List.get_mem salvage.routines ⟨0, by decide⟩, rfl, by decide +kernel, sites, walked, same⟩

end Tree
end EffectAudit
