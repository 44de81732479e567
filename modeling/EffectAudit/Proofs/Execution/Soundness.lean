import EffectAudit.Proofs.Analysis
import EffectAudit.Proofs.Execution.Position
import EffectAudit.Proofs.Inference.LeastSolution
/-! Inference misses no exception of a first-order unit. An execution that ends in an exception is
followed down to the raise or to the call that threw it. That site is among the routine's sites, and
no handler around it covers the kind, so the sum over the sites admits it; the table holds at least
the sums, and where a list is declared the check has compared it with them. -/
namespace EffectAudit.Execution

variable {program : Program} {h : Hierarchies} {table : EffectTable} {events : List Site.Event}
  {kind : Kind}

def Counted (h : Hierarchies) (table : EffectTable) (id : RoutineId) (events : List Site.Event)
    (kind : Kind) : Prop :=
  (Contribution.accumulate h table (.ofEvents id events) .raises .all).admits h.raises kind = true

theorem escapesUncovered (top : h.raises.parent? h.raises.root = none) {y : Item}
    (admits : y.Admits h.raises kind) {context : Site.Context}
    (free : ∀ g ∈ context.guards, g.coverage.covers h.raises kind = false) :
    y.Escapes h .all .raises context :=
  fun _ g member _ => Coverage.letsUncovered top admits (free g member)

theorem countedEdge (top : h.raises.parent? h.raises.root = none) {id : RoutineId} {edge : EdgeKind}
    {callee : RoutineId} {context : Site.Context} {span : Span} (named : edge ≠ .indirectParam)
    (event : .edge edge (.routine callee) context span ∈ events)
    (free : ∀ g ∈ context.guards, g.coverage.covers h.raises kind = false)
    (admitted : (table.referenceSet callee .raises).admits h.raises kind = true) :
    Counted h table id events kind := by
  obtain ⟨y, held, admits⟩ := EffectSet.admitsHolds.mp admitted
  obtain ⟨ordinal, listed⟩ := RoutineSites.edgeListed event id
  have subject : Site.Edge.subject? .raises ⟨ordinal, edge, .routine callee, context, span⟩ =
      some callee := by simp [Site.Edge.subject?, named]
  rw [← Contribution.ofEdgeSubject subject] at held
  refine EffectSet.admitsHolds.mpr ⟨y, Contribution.accumulateHolds.mpr ⟨y, ?_, .inr rfl⟩, admits⟩
  exact .edge _ listed rfl held (escapesUncovered top admits free)

theorem countedRaise (top : h.raises.parent? h.raises.root = none) {id : RoutineId} {raised : Raised}
    {context : Site.Context} {span : Span} (event : .raise raised context span ∈ events)
    (free : ∀ g ∈ context.guards, g.coverage.covers h.raises kind = false)
    (admitted : (Contribution.ofRaise h ⟨0, raised, context, span⟩).admits h.raises kind = true) :
    Counted h table id events kind := by
  obtain ⟨y, held, admits⟩ := EffectSet.admitsHolds.mp admitted
  obtain ⟨ordinal, listed⟩ := RoutineSites.raiseListed event id
  refine EffectSet.admitsHolds.mpr ⟨y, Contribution.accumulateHolds.mpr ⟨y, ?_, .inr rfl⟩, admits⟩
  exact .raise _ rfl listed rfl held (escapesUncovered top admits free)

def Closed (program : Program) (h : Hierarchies) (table : EffectTable) : Prop :=
  ∀ id r body, program.routine? id = some r → r.kind.isDispatched = false → r.body = some body →
    ∃ after events, Collect.Walk ⟨program, h, r⟩ {} {} (.block body) after events ∧
      ∀ kind, Counted h table r.id events kind →
        (table.referenceSet id .raises).admits h.raises kind = true

theorem calleeNamed {callee : Callee} {args : List Expr} {span : Span}
    (order : codeFirstOrder (.expr (.call callee args span)) = true) :
    ∃ id, callee = .routine id := by
  simp only [codeFirstOrder, exprFirstOrder, Bool.and_eq_true] at order
  cases callee with
  | routine id => exact ⟨id, rfl⟩
  | binding name => simp [namesCallee] at order
  | computed value => simp [namesCallee] at order

theorem bodyFirstOrder (firstOrder : programFirstOrder program = true) {r : Routine}
    (listed : r ∈ program.routines) {body : List Stmt} (there : r.body = some body) :
    blockFirstOrder body = true := by
  have all := List.all_eq_true.mp firstOrder r listed
  rw [there] at all
  exact all

theorem outsideThrew {ending : Ending} (thrown : ending.outside = .threw kind) :
    ending = .threw kind := by
  cases ending with
  | done => cases thrown
  | left => cases thrown
  | threw other => exact thrown

theorem raisedAdmits {raised : Kind} (tracked : h.raises.isTracked raised = true)
    (context : Site.Context) (span : Span) :
    (Contribution.ofRaise h ⟨0, .kind raised, context, span⟩).admits h.raises raised = true :=
  EffectSet.ofKindsAdmits (List.mem_singleton_self _) tracked (Hierarchy.coveredSelf _)

theorem standsBody (firstOrder : programFirstOrder program = true) {r : Routine}
    (listed : r ∈ program.routines) {body : List Stmt} (there : r.body = some body)
    {after : Collect.Scope} (walk : Collect.Walk ⟨program, h, r⟩ {} {} (.block body) after events) :
    Stands ⟨program, h, r⟩ events none kind {} (.block body) :=
  ⟨bodyFirstOrder firstOrder listed there, ⟨{}, after, events, walk, List.Subset.refl _⟩, rfl, by simp⟩

/- By induction on the execution. The routine and its events change at a call of a routine that is
there: what the called body throws is in its own sum, and so in what the call stands for. -/
theorem thrownCounted (top : h.raises.parent? h.raises.root = none)
    (firstOrder : programFirstOrder program = true) (closed : Closed program h table)
    {now : Option Kind} {code : Code} {ending : Ending}
    (run : Runs program h.raises table now code ending) (thrown : ending = .threw kind)
    (tracked : h.raises.isTracked kind = true) {r : Routine} {place : Collect.Place}
    (stands : Stands ⟨program, h, r⟩ events now kind place code) :
    Counted h table r.id events kind := by
  induction run generalizing kind r events place with
  | nil | literal | name | routine | exprsNil | declare | noArm | exit | marker | blockNil =>
    cases thrown
  | loopEnds | exitWith | calledThrough | elsewhere => cases thrown
  | argumentThrows before ih =>
    obtain ⟨id, rfl⟩ := calleeNamed stands.firstOrder
    exact ih thrown tracked (standsCall stands).1
  | called before call _ ih => exact ih thrown tracked (standsCall stands).2
  | calledThroughThrows indirect =>
    obtain ⟨id, rfl⟩ := calleeNamed stands.firstOrder
    exact (indirect id rfl).elim
  | exprsThrows first ih => exact ih thrown tracked (standsExprs stands).1
  | exprsCons first others _ ih => exact ih thrown tracked (standsExprs stands).2
  | body found plain there run ih =>
    -- the called body has a place, events and a sum of its own
    obtain ⟨edge, span, named, event⟩ := stands.collected
    obtain ⟨_, _, walked, within⟩ := closed _ _ _ found plain there
    have listed := List.mem_of_find?_eq_some found
    have inner := ih (outsideThrew thrown) tracked (standsBody firstOrder listed there walked)
    exact countedEdge top named event stands.free (within _ inner)
  | elsewhereThrows found away admitted =>
    cases thrown
    obtain ⟨edge, span, named, event⟩ := stands.collected
    exact countedEdge top named event stands.free admitted
  | value run ih => exact ih thrown tracked (standsValue rfl stands)
  | define run ih => exact ih thrown tracked (standsValue rfl stands)
  | assign run ih => exact ih thrown tracked (standsValue rfl stands)
  | exitThrows run ih => exact ih thrown tracked (standsValue rfl stands)
  | raiseArgument before ih => exact ih thrown tracked (standsRaise stands).1
  | raise before _ =>
    cases thrown
    exact countedRaise top (standsRaise stands).2 stands.free (raisedAdmits tracked _ _)
  | raiseAgain before _ =>
    cases thrown
    obtain ⟨kinds, same, catches⟩ := stands.handling
    have event := (standsRaise stands).2
    unfold Collect.raisedAt at event
    rw [same] at event
    exact countedRaise top event stands.free (Coverage.againAdmits catches tracked)
  | raiseLoose before _ =>
    have event := (standsRaise stands).2
    have loose : place.caught = .all := stands.handling
    unfold Collect.raisedAt at event
    rw [loose] at event
    exact countedRaise top event stands.free rfl
  | branch run ih => exact ih thrown tracked (standsBranch stands)
  | testThrows test ih => exact ih thrown tracked (standsArms stands).1
  | taken test run _ ih =>
    obtain ⟨_, ⟨inner, inside⟩, _⟩ := standsArms stands
    exact ih thrown tracked inside
  | skipped test run _ ih =>
    obtain ⟨_, _, ⟨inner, inside⟩⟩ := standsArms stands
    exact ih thrown tracked inside
  | otherwise run ih => exact ih thrown tracked (standsElse stands)
  | loopTestThrows test ih => exact ih thrown tracked (standsLoop stands).1
  | loopLeft test run stops _ ih =>
    obtain ⟨inner, inside⟩ := (standsLoop stands).2
    exact ih thrown tracked inside
  | loopAgain test run again _ _ ih => exact ih thrown tracked stands
  | uncaught run free ih =>
    obtain ⟨inner, inside⟩ := standsTried stands (free _ thrown)
    exact ih thrown tracked inside
  | caught run listed catches handling _ ih =>
    -- the handler stands outside the guards of its own `try`, and what it caught may be untracked
    obtain ⟨inner, inside⟩ := standsHandler stands listed catches
    exact ih thrown tracked inside
  | attempt run ih => exact ih thrown tracked (standsProtect stands).1
  | cleaned run clean ih _ => exact ih thrown tracked (standsProtect stands).1
  | replaced run clean stops _ ih =>
    obtain ⟨after, inside⟩ := (standsProtect stands).2 _ rfl
    exact ih thrown tracked inside
  | block run ih => exact ih thrown tracked (standsBlock stands)
  | blockStops first stops ih => exact ih thrown tracked (standsCons stands).1
  | blockCons first others _ ih => exact ih thrown tracked (standsCons stands).2

def exceedsRaises : Violation → Bool
  | .explicitEmpty _ .raises _ _ => true
  | .undeclaredEffect _ .raises _ _ => true
  | _ => false

theorem checkedDeclared {r : Routine} {e : RoutineEffects} {kinds : List Kind}
    (given : r.declared .raises = some kinds)
    (kept : ∀ v ∈ Assignability.checkDeclared h r e .raises, exceedsRaises v = false) :
    (e.raises.inferred.uncoveredBy h.raises e.raises.resolved).isEmpty = true := by
  by_contra missing
  rw [Bool.not_eq_true] at missing
  simp only [Assignability.checkDeclared, given, RoutineEffects.get, Hierarchies.get, missing,
    Bool.false_eq_true, if_false] at kept
  cases none : kinds.isEmpty with
  | true => simp [none, exceedsRaises] at kept
  | false => simp [none, exceedsRaises] at kept

theorem declarationChecked {g : CallGraph} {r : Routine} (listed : r ∈ program.routines)
    {e : RoutineEffects} (found : table.get? r.id = some e) (walked : e.analyzed = true)
    {category : Category} {v : Violation} (there : v ∈ Assignability.checkDeclared h r e category) :
    v ∈ Assignability.checkProgram h table program g := by
  refine List.mem_flatMap.mpr ⟨r, listed, List.mem_append_left _ ?_⟩
  simp only [Assignability.checkDeclaration, found, walked, if_true]
  refine List.mem_append_left _ (List.mem_flatMap.mpr ⟨category, ?_, there⟩)
  cases category <;> decide

theorem resolvedLeReference (t : EffectTable) (id : RoutineId) (category : Category) :
    t.resolved id category ≤ t.referenceSet id category := by
  unfold EffectTable.resolved EffectTable.referenceSet
  cases t.get? id with
  | none => exact le_rfl
  | some e =>
    simp only [RoutineEffects.referenceSet]
    split
    · exact EffectSet.leUnknown _
    · exact le_rfl

section Analysed

variable {i : Inference.Setting}
  (built : CallGraph.ofProgram i.program i.hierarchies = .ok i.graph)
  (top : i.hierarchies.raises.parent? i.hierarchies.raises.root = none)
  (kept : ∀ v ∈ Assignability.checkProgram i.hierarchies (Inference.run i).table i.program i.graph,
    exceedsRaises v = false)

include built top kept

theorem inferredResolved {r : Routine} (listed : r ∈ i.program.routines) (body : r.hasBody = true)
    (admitted : ((Inference.run i).table.inferred r.id .raises).admits i.hierarchies.raises kind = true) :
    ((Inference.run i).table.resolved r.id .raises).admits i.hierarchies.raises kind = true := by
  cases given : r.declared .raises with
  | none =>
    rw [(Inference.runSolves built).undeclared r listed .raises given]
    exact admitted
  | some kinds =>
    obtain ⟨e, found, entry⟩ := (Inference.runShaped built).entry r listed
    have walked : e.analyzed = true := entry.analyzed.trans body
    have within := checkedDeclared (h := i.hierarchies) (e := e) given
      fun v there => kept v (declarationChecked listed found walked there)
    rw [EffectTable.inferredOfGet found] at admitted
    simp only [EffectTable.resolved, found]
    exact EffectSet.admitsOfNoneUncovered top within admitted

theorem bodyCounted {r : Routine} (listed : r ∈ i.program.routines) {body : List Stmt}
    (there : r.body = some body) :
    ∃ after events, Collect.Walk ⟨i.program, i.hierarchies, r⟩ {} {} (.block body) after events ∧
      ∀ kind, Counted i.hierarchies (Inference.run i).table r.id events kind →
        ((Inference.run i).table.inferred r.id .raises).admits i.hierarchies.raises kind = true ∧
        ((Inference.run i).table.resolved r.id .raises).admits i.hierarchies.raises kind = true := by
  obtain ⟨sites, found, collected⟩ := CallGraph.sitesOfRoutine built listed
  obtain ⟨after, events, walk, rfl⟩ := Collect.routineWalk collected
  have hasBody : r.hasBody = true := by simp [Routine.hasBody, there]
  rw [there, Option.getD_some] at walk
  refine ⟨after, events, walk, ?_⟩
  intro kind counted
  have inferred := EffectSet.admitsLe (Inference.runRule built listed hasBody found .raises) counted
  exact ⟨inferred, inferredResolved built top kept listed hasBody inferred⟩

theorem runClosed : Closed i.program i.hierarchies (Inference.run i).table := by
  intro id r body found _ there
  have distinct := (CallGraph.ofProgramOk.mp built).1
  obtain ⟨listed, rfl⟩ := (Inference.routineFound distinct).mp found
  obtain ⟨after, events, walk, within⟩ := bodyCounted built top kept listed there
  refine ⟨after, events, walk, ?_⟩
  intro kind counted
  exact EffectSet.admitsLe (resolvedLeReference _ _ _) (within kind counted).2

end Analysed

/- Whatever tracked kind leaves a body is in what was inferred for the routine, in what its callers see
and in what a reference to it stands for. -/
theorem escapingKindsAdmitted {config : Config} {registry : Registry} {result : UnitResult}
    (firstOrder : programFirstOrder program = true)
    (hierarchies : program.hierarchies config.hierarchyOptions = .ok h)
    (analyzed : analyze config registry program = .ok result)
    (kept : ∀ v ∈ result.violations, exceedsRaises v = false)
    {r : Routine} (listed : r ∈ program.routines) {body : List Stmt} (there : r.body = some body)
    (run : Runs program h.raises result.table none (.block body) (.threw kind))
    (tracked : h.raises.isTracked kind = true) :
    (result.table.inferred r.id .raises).admits h.raises kind = true ∧
      (result.table.resolved r.id .raises).admits h.raises kind = true ∧
      (result.table.referenceSet r.id .raises).admits h.raises kind = true := by
  obtain ⟨h', g, _, same, built, rfl⟩ := analyzeOk.mp analyzed
  cases hierarchies.symm.trans same
  have top := Hierarchies.raisesTop hierarchies
  have closed := runClosed (i := inferenceOf config registry program h g) built top kept
  obtain ⟨_, _, walked, within⟩ :=
    bodyCounted (i := inferenceOf config registry program h g) built top kept listed there
  have counted := thrownCounted top firstOrder closed run rfl tracked
    (standsBody firstOrder listed there walked)
  obtain ⟨inferred, resolved⟩ := within kind counted
  exact ⟨inferred, resolved, EffectSet.admitsLe (resolvedLeReference _ _ _) resolved⟩

/- The reader throws an end of file, catches it as an input error and raises it again; the caller
declares input errors only. -/
def copyUnit : Program :=
  { unit := "copy"
    routines := [
      { id := "next"
        body := some [
          .protect [.raise (some "EOFError") [] .zero] [.mk ["IOError"] [.raise none [] .zero]]
            (some [.marker none .zero])] },
      { id := "copy"
        effects := { raises := some ["IOError"] }
        body := some [.loop (.name "more") [.expr (.call (.routine "next") [] .zero)]] }] }

def copyGraph : CallGraph := (CallGraph.ofProgram copyUnit .builtin).toOption.getD ⟨[]⟩

def copyResult : UnitResult := concluded (.ofPreset .permissive) {} copyUnit .builtin copyGraph

theorem nextThrows : Runs copyUnit Hierarchies.builtin.raises copyResult.table none (.call "next")
    (.threw "EOFError") := by
  have caught : Coverage.Catches Hierarchies.builtin.raises ["IOError"] "EOFError" :=
    .inr ⟨"IOError", by simp, by decide +kernel⟩
  have tried : Runs copyUnit Hierarchies.builtin.raises copyResult.table none
      (.attempt [.raise (some "EOFError") [] .zero] [.mk ["IOError"] [.raise none [] .zero]])
      (.threw "EOFError") :=
    .caught (.blockStops (.raise .exprsNil) (by simp)) (List.mem_singleton_self _) caught
      (.blockStops (.raiseAgain .exprsNil) (by simp))
  have whole : Runs copyUnit Hierarchies.builtin.raises copyResult.table none
      (.block [.protect [.raise (some "EOFError") [] .zero] [.mk ["IOError"] [.raise none [] .zero]]
        (some [.marker none .zero])]) (.threw "EOFError") :=
    .blockStops (.cleaned tried (.blockCons .marker .blockNil)) (by simp)
  exact .body rfl rfl rfl whole

theorem copyLetsOutEndOfFile :
    copyResult.table.inferred "copy" .raises = .known (.ofList ["IOError"]) ∧
      (copyResult.table.inferred "copy" .raises).admits Hierarchies.builtin.raises "EOFError" = true ∧
      (copyResult.table.resolved "copy" .raises).admits Hierarchies.builtin.raises "EOFError" = true ∧
      (copyResult.table.referenceSet "copy" .raises).admits Hierarchies.builtin.raises "EOFError" =
        true := by
  have analyzed : analyze (.ofPreset .permissive) {} copyUnit = .ok copyResult :=
    analyzeOk.mpr ⟨.builtin, copyGraph, rfl, by decide +kernel, by decide +kernel, rfl⟩
  have run : Runs copyUnit Hierarchies.builtin.raises copyResult.table none
      (.block [.loop (.name "more") [.expr (.call (.routine "next") [] .zero)]]) (.threw "EOFError") :=
    .blockStops (.loopLeft .name (.blockStops (.value (.called .exprsNil nextThrows)) (by simp))
      (by simp)) (by simp)
  exact ⟨by decide +kernel, escapingKindsAdmitted (h := .builtin) (by decide +kernel)
    (by decide +kernel) analyzed (by decide +kernel) (r := copyUnit.routines[1]) (by simp [copyUnit])
    rfl run (by decide +kernel)⟩

end EffectAudit.Execution
