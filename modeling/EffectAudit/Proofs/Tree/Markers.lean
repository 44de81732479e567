import EffectAudit.Proofs.Site.Exclusion
import EffectAudit.Proofs.Tree.Flattening
import EffectAudit.Report
/-! The report at a marker is what the tree says up to it. The sites before the marker are summed piece by
piece: a piece of code that can run before the marker adds its effects as a whole, with the handlers
of every `try` that has been left taken off; a piece on another branch adds nothing. -/
namespace EffectAudit
namespace Tree
open Collect

variable (u : Setting) (table : EffectTable) (category : Category)

def upToContext (context : Site.Context) : SiteFilter := .upTo ⟨0, 0, none, context, .zero⟩

def seenAt (context : Site.Context) (before : List Site.Event) : EffectSet :=
  Contribution.ofEvents u.hierarchies table (upToContext context) category
    (before.filter fun event => !(event.context?.getD {}).isExclusiveWith context)

def marksOf (before : List Site.Event) : List Site.Event → List Mark
  | [] => []
  | .marker label context span :: rest =>
    ⟨label, span, seenAt u table category context before⟩ ::
      marksOf (before ++ [.marker label context span]) rest
  | event :: rest => marksOf (before ++ [event]) rest

variable {u table category}

@[simp] theorem marksOfNil (before : List Site.Event) : marksOf u table category before [] = [] := rfl

theorem seenAppend (context : Site.Context) (a b : List Site.Event) :
    seenAt u table category context (a ++ b) =
      (seenAt u table category context a).union (seenAt u table category context b) := by
  unfold seenAt
  rw [List.filter_append, Contribution.ofEventsAppend]

theorem marksAppend (before a b : List Site.Event) :
    marksOf u table category before (a ++ b) =
      marksOf u table category before a ++ marksOf u table category (before ++ a) b := by
  induction a generalizing before with
  | nil => simp
  | cons event rest ih =>
    cases event <;> simp [marksOf, ih]

theorem marksShift {set : EffectSet} (a before b : List Site.Event)
    (same : ∀ label context span, .marker label context span ∈ b →
      seenAt u table category context a = set) :
    marksOf u table category (a ++ before) b =
      (marksOf u table category before b).map (·.after set) := by
  induction b generalizing before with
  | nil => rfl
  | cons event rest ih =>
    have later := fun before => ih before fun label context span member =>
      same label context span (List.mem_cons_of_mem _ member)
    cases event with
    | marker label context span =>
      have here := same label context span (List.mem_cons_self ..)
      simp only [marksOf, List.append_assoc, later, List.map_cons, Mark.after, seenAppend, here]
    | edge kind target context span => simp only [marksOf, List.append_assoc, later]
    | raise raised context span => simp only [marksOf, List.append_assoc, later]
    | binding target expected value span => simp only [marksOf, List.append_assoc, later]

theorem marksAfter {set : EffectSet} (a b : List Site.Event)
    (same : ∀ label context span, .marker label context span ∈ b →
      seenAt u table category context a = set) :
    marksOf u table category [] (a ++ b) =
      marksOf u table category [] a ++ (marksOf u table category [] b).map (·.after set) := by
  have shifted := marksShift a [] b same
  rw [List.append_nil] at shifted
  rw [marksAppend, List.nil_append, shifted]

theorem marksNone {context : Site.Context} {events : List Site.Event} (plain : EventsAt context events)
    (before : List Site.Event) : marksOf u table category before events = [] := by
  induction events generalizing before with
  | nil => rfl
  | cons event rest ih =>
    have first := (plain event (List.mem_cons_self ..)).2
    have others := ih fun other member => plain other (List.mem_cons_of_mem _ member)
    cases event with
    | marker label context span => contradiction
    | edge kind target context span => exact others _
    | raise raised context span => exact others _
    | binding target expected value span => exact others _

theorem seenKept {marker : Site.Context} {events : List Site.Event}
    (kept : ∀ event ∈ events, ∀ c, event.context? = some c → c.isExclusiveWith marker = false) :
    seenAt u table category marker events =
      Contribution.ofEvents u.hierarchies table (upToContext marker) category events := by
  unfold seenAt
  rw [List.filter_eq_self.mpr]
  intro event member
  cases there : event.context? with
  | none => rfl
  | some c => simp [kept event member c there]

theorem seenDropped {marker : Site.Context} {events : List Site.Event}
    (dropped : ∀ event ∈ events, ∀ c, event.context? = some c → c.isExclusiveWith marker = true) :
    seenAt u table category marker events = ∅ := by
  apply EffectSet.eqOfHolds
  intro x
  unfold seenAt
  simp only [Contribution.ofEventsHolds, EffectSet.emptyHolds, iff_false]
  intro given
  obtain ⟨event, member, held⟩ := given
  obtain ⟨listed, free⟩ := List.mem_filter.mp member
  cases event with
  | edge kind target context span =>
    have excluded := dropped _ listed context rfl
    simp [Site.Event.context?, excluded] at free
  | raise raised context span =>
    have excluded := dropped _ listed context rfl
    simp [Site.Event.context?, excluded] at free
  | marker label context span => exact EffectSet.emptyHolds held
  | binding target expected value span => exact EffectSet.emptyHolds held

theorem openEscaping {h : Hierarchies} {context marker : Site.Context}
    (inside : ∀ g ∈ context.guards, marker.inTryBodyOf g.construct = true) (set : EffectSet) :
    Contribution.escaping h (upToContext marker) category context set = set := by
  have none : context.guards.filter (upToContext marker).applies = [] := by
    rw [List.filter_eq_nil_iff]
    intro g around
    simp [upToContext, SiteFilter.applies, inside g around]
  cases category with
  | tags => rfl
  | raises =>
    unfold Contribution.escaping
    dsimp only
    rw [none]
    rfl

theorem seenWhole {context marker : Site.Context} {s : Scope} {events : List Site.Event}
    {tree : Scope × EffectSet}
    (agrees : Agrees u table (upToContext marker) category context s events tree)
    (kept : ∀ event ∈ events, ∀ c, event.context? = some c → c.isExclusiveWith marker = false)
    (inside : ∀ g ∈ context.guards, marker.inTryBodyOf g.construct = true) :
    seenAt u table category marker events = tree.2 := by
  rw [seenKept kept, agrees.sum, openEscaping inside]

theorem appliesAfter {outer marker : Site.Context} {low high : Nat}
    (after : After outer low high marker) : AppliesIn (upToContext marker) low high := by
  intro construct coverage above below
  simp [upToContext, SiteFilter.applies, after.outside construct above below]

theorem valueSeen {context marker : Site.Context} {s : Scope} {value : Expr} {events : List Site.Event}
    {top : Nat} (placed : Placed context s.nextConstruct)
    (noted : NotesAll u s context value.uses events)
    (within : Within context s.nextConstruct top marker) :
    seenAt u table category marker events = exprEffects u table category (unnumbered s) value := by
  have after := afterHere placed (Nat.le_refl _) within
  refine seenWhole (agreesValue noted) ?_ (guardsOpen placed within)
  intro event member c found
  rw [(notesAt noted event member).1 c found]
  exact after.compatible context (withinSelf _ _ _)

section Seen

variable {place : Place} {s s' : Scope} {events : List Site.Event} {marker : Site.Context} {top : Nat}

theorem stmtSeen {code : Stmt} (placed : Placed place.context s.nextConstruct)
    (walk : Walk u place s (.stmt code) s' events)
    (within : Within place.context s'.nextConstruct top marker) :
    seenAt u table category marker events =
      (stmtEffects u table category place.caught (unnumbered s) code).2 := by
  have numbered := walkNumbered walk
  have after := afterHere placed numbered.grows within
  refine seenWhole (walkFlattened walk (appliesAfter after)) ?_ (guardsOpen placed within)
  intro event member c found
  exact after.compatible c (numbered.within event member c found)

theorem triedSeen {body : List Stmt} {handlers : List Handler} {mine : Arm} {low : Nat}
    (placed : Placed place.context s.nextConstruct)
    (walk : Walk u (place.shielded u s.nextConstruct handlers) s.advance (.block body) s' events)
    (other : mine ≠ .tryBody) (later : s'.nextConstruct ≤ low)
    (within : Within (place.context.enter s.nextConstruct mine) low top marker) :
    seenAt u table category marker events =
      throughHandlers u category handlers
        (blockEffects u table category place.caught (unnumbered s) body).2 := by
  have numbered := walkNumbered walk
  have started : s.nextConstruct < s'.nextConstruct := numbered.grows
  have after : After (place.context.enter s.nextConstruct .tryBody) (s.nextConstruct + 1)
      s'.nextConstruct marker :=
    afterArm placed (by cases mine <;> rfl) (Nat.lt_succ_self _) started
      (withinWiden within later (Nat.le_refl _))
  have left := leftTry placed other (Nat.lt_of_lt_of_le started later) within
  have escaped : Agrees u table (upToContext marker) category place.context s' events
      ((blockEffects u table category place.caught (unnumbered s) body).1,
        throughHandlers u category handlers
          (blockEffects u table category place.caught (unnumbered s) body).2) :=
    agreesTry (fun coverage => by simp [upToContext, SiteFilter.applies, left])
      (walkFlattened walk (appliesAfter after))
  have opened := guardsOpen (placedEnter placed mine (Nat.lt_succ_self _)) within
  refine seenWhole escaped ?_ opened
  intro event member c found
  exact after.compatible c (numbered.within event member c found)

theorem handledSeen {construct index : Nat} {handlers : List Handler}
    (placed : Placed place.context construct) (before : construct < s.nextConstruct)
    (walk : Walk u place s (.handlers construct index handlers) s' events)
    (within : Within (place.context.enter construct .cleanup) s'.nextConstruct top marker) :
    seenAt u table category marker events =
      (handlersEffects u table category (unnumbered s) handlers).2 := by
  have numbered := walkNumbered walk
  have after (position : Nat) : After (place.context.enter construct (.handler position))
      s.nextConstruct s'.nextConstruct marker :=
    afterArm placed rfl before numbered.grows within
  have opened := guardsOpen (placedEnter placed .cleanup before) within
  refine seenWhole (walkFlattened walk (appliesAfter (after 0))) ?_ opened
  intro event member c found
  obtain ⟨position, _, there⟩ := numbered.within event member c found
  exact (after position).compatible c there

end Seen

theorem afterNothing (marks : List Mark) : marks.map (·.after ∅) = marks := by
  have same : Mark.after ∅ = id := by
    funext mark
    simp [Mark.after]
  rw [same, List.map_id]

def pieceMarks (u : Setting) (table : EffectTable) (category : Category) (caught : Coverage) (s : Scope) :
    Piece → List Mark
  | .stmt code => stmtMarks u table category caught s code
  | .block body => blockMarks u table category caught s body
  | .optional body => elseMarks u table category caught s body
  | .arms arms otherwise => stmtMarks u table category caught s (.branch arms otherwise)
  | .handlers _ _ handlers => handlersMarks u table category s handlers

/- The `else` of the whole chain is reached past the same conditions as the `else` of the rest, and past
the first one before them. -/
theorem armsMarksCons (caught : Coverage) (s : Scope) (cond : Expr) (body : List Stmt)
    (rest : List BranchArm) (otherwise : Option (List Stmt)) :
    pieceMarks u table category caught s (.arms (.mk cond body :: rest) otherwise) =
      (blockMarks u table category caught s body ++ pieceMarks u table category caught
        (blockEffects u table category caught s body).1 (.arms rest otherwise)).map
          (·.after (exprEffects u table category s cond)) := by
  simp [pieceMarks, stmtMarks, armsMarks, armsEffects, condsEffects, Mark.after, EffectSet.unionAssoc]

def PiecePlaced (context : Site.Context) (s : Scope) : Piece → Prop
  | .handlers construct _ _ => Placed context construct ∧ construct < s.nextConstruct
  | _ => Placed context s.nextConstruct

theorem plainMarked {place : Place} {s : Scope} {code : Stmt} {own : List Site.Event}
    (simple : code.isPlain = true) (noted : NotesAll u s place.context code.uses own) :
    marksOf u table category [] (own ++ closingEvents u place s code) =
      stmtMarks u table category place.caught (unnumbered s) code := by
  have unmarked (other : ∀ label span, code ≠ .marker label span) :
      marksOf u table category [] (own ++ closingEvents u place s code) = [] :=
    marksNone (eventsAtAppend (notesAt noted) (closingAt other)) []
  cases code, simple using Stmt.plainCases with
  | marker label span =>
    cases notesNil.mp noted
    rfl
  | expr value => exact unmarked (by simp)
  | define name type value span => exact unmarked (by simp)
  | assign name value span => exact unmarked (by simp)
  | raise kind args span => exact unmarked (by simp)
  | exit value => exact unmarked (by simp)

theorem walkMarked {place : Place} {s s' : Scope} {piece : Piece} {events : List Site.Event}
    (walk : Walk u place s piece s' events) (placed : PiecePlaced place.context s piece) :
    marksOf u table category [] events =
      pieceMarks u table category place.caught (unnumbered s) piece := by
  induction walk with
  | plain simple admitted noted => exact plainMarked simple noted
  | branch chain ih => exact ih placed
  | @loop place s s' cond body test round tested inside ih =>
    have marked := ih (placedEnter placed .loopBody (Nat.lt_succ_self _))
    have numbered := numberedEnter (s := s) (walkNumbered inside) (Nat.le_refl _) (Nat.lt_succ_self _)
    rw [pieceMarks, stmtMarks, marksAfter test round fun label context span member =>
      valueSeen placed tested (numbered.within _ member context rfl), marksNone (notesAt tested), marked]
    rfl
  | @protect place s s₁ s₂ s₃ body handlers cleanup first second third admitted tried handled cleaned
      attempt handler last =>
    have started : s.nextConstruct < s₁.nextConstruct := walkGrows tried
    have passed := walkGrows handled
    have bodyScope : (blockEffects u table category place.caught (unnumbered s) body).1 = unnumbered s₁ :=
      (walkFlattened tried (appliesAll _ _)).scope
    have handlersScope : (handlersEffects u table category (unnumbered s₁) handlers).1 = unnumbered s₂ :=
      (walkFlattened handled (appliesAll _ _)).scope
    have inner := attempt (placedGuarded (placedEnter placed .tryBody (Nat.lt_succ_self _)) _)
    have caught := handler ⟨placed, started⟩
    have after := last (placedEnter placed .cleanup (Nat.lt_of_lt_of_le started passed))
    rw [pieceMarks, stmtMarks, bodyScope, handlersScope,
      marksAfter (first ++ second) third fun label context span member => ?_,
      marksAfter first second fun label context span member => ?_, inner, caught, after]
    · rfl
    · obtain ⟨position, _, within⟩ := (walkNumbered handled).within _ member context rfl
      exact triedSeen placed tried (by simp) (Nat.le_refl _) within
    · have within := (walkNumbered cleaned).within _ member context rfl
      rw [seenAppend, triedSeen placed tried (by simp) passed within,
        handledSeen placed started handled within]
  | nested inside ih =>
    rw [pieceMarks, stmtMarks]
    exact ih placed
  | nil => rfl
  | @cons place s s₁ s₂ code rest own others one more first later =>
    have scope : (stmtEffects u table category place.caught (unnumbered s) code).1 = unnumbered s₁ :=
      (walkFlattened one (appliesAll _ _)).scope
    have numbered := walkNumbered more
    rw [pieceMarks, blockMarks, scope, marksAfter own others fun label context span member =>
      stmtSeen placed one (numbered.within _ member context rfl), first placed,
      later (placedLater placed (walkGrows one))]
    rfl
  | absent => rfl
  | present inside ih => exact ih placed
  | skipped last ih =>
    rw [ih placed]
    simp [pieceMarks, stmtMarks, armsMarks, armsEffects, condsEffects, afterNothing]
  | @arm place s s₁ s₂ cond body rest otherwise test own others tested taken more first later =>
    have inside := walkNumbered taken
    have skipped := walkNumbered more
    have started : s.nextConstruct < s₁.nextConstruct := inside.grows
    have scope : (blockEffects u table category place.caught (unnumbered s) body).1 = unnumbered s₁ :=
      (walkFlattened taken (appliesAll _ _)).scope
    have chosen := first (placedEnter placed (.branch 0) (Nat.lt_succ_self _))
    have passed := later (placedEnter placed (.branch 1) started)
    -- whoever stands in the second branch sees nothing of the first
    have bodies : marksOf u table category [] (own ++ others) =
        blockMarks u table category place.caught (unnumbered s) body ++
          pieceMarks u table category place.caught (unnumbered s₁) (.arms rest otherwise) := by
      rw [marksAfter own others fun label context span member => ?_, afterNothing, chosen, passed]
      · rfl
      · refine seenDropped fun event listed c found => ?_
        exact exclusiveArms rfl (inside.within event listed c found)
          (skipped.within _ member context rfl)
    rw [armsMarksCons, scope, List.append_assoc,
      marksAfter test (own ++ others) fun label context span member => ?_, marksNone (notesAt tested), bodies]
    · rfl
    · have both := numberedJoin (numberedEnter (s := s) inside (Nat.le_refl _) (Nat.lt_succ_self _))
        (numberedEnter skipped (Nat.le_refl _) started) skipped.grows
      exact valueSeen placed tested (both.within _ member context rfl)
  | unhandled => rfl
  | @handler place s s₁ s₂ construct index kinds body rest own others one more first later =>
    obtain ⟨around, before⟩ := placed
    have inside := walkNumbered one
    have scope : (blockEffects u table category (Coverage.ofHandler u.hierarchies.raises kinds)
        (unnumbered s) body).1 = unnumbered s₁ := (walkFlattened one (appliesAll _ _)).scope
    rw [pieceMarks, handlersMarks, scope, marksAfter own others fun label context span member => ?_,
      afterNothing, first (placedEnter around (.handler index) before),
      later ⟨around, Nat.lt_of_lt_of_le before inside.grows⟩]
    · rfl
    · obtain ⟨position, after, within⟩ := (walkNumbered more).within _ member context rfl
      refine seenDropped fun event listed c found => ?_
      exact exclusiveArms (by simp [Arm.excludes]; omega) (inside.within event listed c found) within

end Tree

def EffectReport.mark (category : Category) (report : EffectReport) : Tree.Mark :=
  { label := report.label
    span := report.span
    effects := match category with
      | .raises => report.raises
      | .tags => report.tags }

namespace Tree
open Collect

variable {u : Setting} {table : EffectTable} {category : Category}

theorem accumulateUpTo (id : RoutineId) (before rest : List Site.Event) {marker : Site.Marker}
    (place : marker.ordinal = before.length) :
    Contribution.accumulate u.hierarchies table (.ofEvents id (before ++ rest)) category (.upTo marker) =
      seenAt u table category marker.context before := by
  rw [Contribution.accumulateEvents]
  apply EffectSet.eqOfHolds
  intro x
  unfold seenAt
  rw [Contribution.ofEventsHolds, Contribution.ofEventsHolds]
  have same (event : Site.Event) : event ∈ Contribution.admitted (.upTo marker) (before ++ rest) ↔
      event ∈ before.filter fun event => !(event.context?.getD {}).isExclusiveWith marker.context := by
    rw [Contribution.memAdmitted, List.mem_filter]
    simp only [SiteFilter.admits, Bool.and_eq_true, decide_eq_true_eq, place]
    constructor
    · intro given
      obtain ⟨ordinal, there, small, free⟩ := given
      rw [List.getElem?_append_left small] at there
      exact ⟨List.mem_of_getElem? there, free⟩
    · intro given
      obtain ⟨member, free⟩ := given
      obtain ⟨ordinal, there⟩ := List.mem_iff_getElem?.mp member
      have small := (List.getElem?_eq_some_iff.mp there).1
      exact ⟨ordinal, by rw [List.getElem?_append_left small, there], small, free⟩
  simp only [same]
  rfl

theorem marksNumbered (id : RoutineId) (before events : List Site.Event) :
    ((events.zipIdx before.length).filterMap fun (event, ordinal) => event.marker? ordinal).map
        (fun marker => ⟨marker.label, marker.span, Contribution.accumulate u.hierarchies table
          (.ofEvents id (before ++ events)) category (.upTo marker)⟩) =
      marksOf u table category before events := by
  induction events generalizing before with
  | nil => rfl
  | cons event rest ih =>
    have later := ih (before ++ [event])
    rw [List.length_append, List.length_singleton, List.append_assoc, List.singleton_append] at later
    cases event with
    | marker label context span =>
      have seen : Contribution.accumulate u.hierarchies table
          (.ofEvents id (before ++ .marker label context span :: rest)) category
          (.upTo ⟨before.length, 0, label, context, span⟩) = seenAt u table category context before :=
        accumulateUpTo id before _ rfl
      unfold marksOf
      rw [← seen, ← later]
      rfl
    | edge kind target context span => exact later
    | raise raised context span => exact later
    | binding target expected value span => exact later

theorem reportsFollowTheTree {program : Program} {h : Hierarchies} {g : CallGraph}
    (built : CallGraph.ofProgram program h = .ok g) {r : Routine} (listed : r ∈ program.routines)
    (table : EffectTable) (category : Category) (index : Nat) :
    (EffectReport.atIndex? g h table r.id index).map (EffectReport.mark category) =
      (routineMarks ⟨program, h, r⟩ table category)[index]? := by
  obtain ⟨sites, found, walked⟩ := CallGraph.sitesOfRoutine built listed
  obtain ⟨scope, events, body, rfl⟩ := routineWalk walked
  have marks : marksOf ⟨program, h, r⟩ table category [] events =
      routineMarks ⟨program, h, r⟩ table category := walkMarked body placedStart
  rw [← marks, ← marksNumbered r.id [] events, List.getElem?_map]
  have reported : EffectReport.atIndex? g h table r.id index =
      ((RoutineSites.ofEvents r.id events).markers[index]?).map
        (EffectReport.ofMarker h table (.ofEvents r.id events)) := by
    unfold EffectReport.atIndex? RoutineSites.marker?
    rw [found, Option.map_eq_bind]
    rfl
  have numbered : (RoutineSites.ofEvents r.id events).markers[index]? =
      ((events.zipIdx.filterMap fun (event, ordinal) => event.marker? ordinal)[index]?).map
        fun marker => { marker with index } := List.getElem?_mapIdx
  rw [reported, numbered, Option.map_map, Option.map_map]
  congr 1
  funext marker
  cases category <;> rfl

def survey : Routine :=
  { id := "survey"
    body := some [
      .branch
        [.mk (.call (.routine "fetch") [] .zero)
            [.marker (some "taken") .zero, .raise (some "Timeout") [] .zero],
          .mk (.literal "retry") [.marker (some "second") .zero]]
        (some [.marker (some "else") .zero]),
      .protect
        [.raise (some "OSError") [] .zero, .raise (some "KeyError") [] .zero,
          .marker (some "tried") .zero]
        [.mk ["KeyError"] [.marker (some "caught") .zero, .raise (some "Cancelled") [] .zero],
          .mk ["ValueError"] [.marker (some "other") .zero]]
        (some [.marker (some "cleaned") .zero])] }

/- `Timeout` is raised on the first branch only, `Cancelled` in the first handler only, and `KeyError` is
caught once the protected body has been left. -/
theorem surveyReported :
    let program := { salvage with routines := survey :: salvage.routines }
    let marks := routineMarks ⟨program, .builtin, survey⟩ salvageTable .raises
    marks.map (fun mark => (mark.label, mark.effects.kinds?)) =
        [(some "taken", some ["EOFError"]), (some "second", some ["EOFError"]),
          (some "else", some ["EOFError"]),
          (some "tried", some ["EOFError", "KeyError", "OSError", "Timeout"]),
          (some "caught", some ["EOFError", "OSError", "Timeout"]),
          (some "other", some ["EOFError", "OSError", "Timeout"]),
          (some "cleaned", some ["Cancelled", "EOFError", "OSError", "Timeout"])] ∧
      ∃ g, CallGraph.ofProgram program .builtin = .ok g ∧
        ∀ index, (EffectReport.atIndex? g .builtin salvageTable "survey" index).map
          (EffectReport.mark .raises) = marks[index]? := by
  intro program marks
  have built : CallGraph.ofProgram program .builtin =
      .ok ((CallGraph.ofProgram program .builtin).toOption.getD ⟨[]⟩) := by decide +kernel
  refine ⟨by decide +kernel, _, built, ?_⟩
  intro index
  exact reportsFollowTheTree built (List.mem_cons_self ..) salvageTable .raises index

end Tree
end EffectAudit
