import EffectAudit.Proofs.Inference.Runs
/-! What a finished run has computed. Every run, widened or not, ends in a table that satisfies the rule
of every body. A run that converges ends in the least such table above the start table, and there the
inferred sets are exactly what the sites add up to. -/
namespace EffectAudit.Inference

variable {i : Setting}

theorem passBoundPositive (c : Config) (routines height : Nat) : 0 < c.passBound routines height := by
  have large : 0 < Config.countLimit := by decide
  unfold Config.passBound
  split
  · assumption
  · omega

theorem seedSettled (built : CallGraph.ofProgram i.program i.hierarchies = .ok i.graph) :
    (seed i).Settled :=
  shapedSettled (seedShaped (CallGraph.ofProgramOk.mp built).1)

theorem openCountVisits (i : Setting) (t : EffectTable) :
    openCount (runVisits i) t ≤ (visitOrder i (seed i)).length :=
  (List.countP_le_length).trans (List.length_filterMap_le _ _)

theorem runQuiet (built : CallGraph.ofProgram i.program i.hierarchies = .ok i.graph) :
    Quiet i.hierarchies (runVisits i) (run i).table := by
  have few := openCountVisits i (seed i)
  have some := passBoundPositive i.config (visitOrder i (seed i)).length i.hierarchies.latticeHeight
  apply passesFinish (seedSettled built)
  change _ - 1 - 0 + openCount (runVisits i) (seed i) + 1 ≤ _
  omega

/- Two routines of one name are one routine, so a visited name always stands for a body. -/
theorem visitedBody (built : CallGraph.ofProgram i.program i.hierarchies = .ok i.graph) {v : Visit}
    (member : v ∈ runVisits i) {r : Routine} (listed : r ∈ i.program.routines) (name : r.id = v.1) :
    r.hasBody = true := by
  obtain ⟨r', listed', name', body, _⟩ := (visited built).mp member
  rw [CallGraph.routineUnique built listed listed' (name.trans name'.symm)]
  exact body

theorem modifyWidenShaped {t : EffectTable} (shape : Shaped i t) {id : RoutineId}
    (body : ∀ r ∈ i.program.routines, r.id = id → r.hasBody = true) :
    Shaped i (t.modify id (·.widen)) := by
  apply shapedModify shape
  intro r listed name e entry
  refine ⟨entry.routine, entry.analyzed, entry.dispatched, ?_⟩
  intro category
  cases category with
  | raises => exact withInferredShape (entry.category .raises) (body r listed name) .unknown
  | tags => exact withInferredShape (entry.category .tags) (body r listed name) .unknown

theorem runShaped (built : CallGraph.ofProgram i.program i.hierarchies = .ok i.graph) :
    Shaped i (run i).table := by
  apply passesInvariant (P := Shaped i) _ _ (seedSettled built)
  · intro t v member shape
    exact visitShaped shape fun r listed name => visitedBody built member listed name
  · intro t v member shape
    exact modifyWidenShaped shape fun r listed name => visitedBody built member listed name
  · exact seedShaped (CallGraph.ofProgramOk.mp built).1

theorem seedLeRun (built : CallGraph.ofProgram i.program i.hierarchies = .ok i.graph) :
    seed i ≤ (run i).table := by
  have both : (run i).table.Settled ∧ seed i ≤ (run i).table := by
    apply passesInvariant (P := fun t => t.Settled ∧ seed i ≤ t) _ _ (seedSettled built)
    · rintro t v _ ⟨settled, above⟩
      exact ⟨visitSettled settled v, above.trans (leVisit settled v)⟩
    · rintro t v _ ⟨settled, above⟩
      refine ⟨modifyWidenSettled settled v.1, above.trans ?_⟩
      exact EffectTable.leModify fun e found => leWiden (settled v.1 e found)
    · exact ⟨seedSettled built, le_rfl⟩
  exact both.2

theorem runRule (built : CallGraph.ofProgram i.program i.hierarchies = .ok i.graph) {r : Routine}
    (listed : r ∈ i.program.routines) (body : r.hasBody = true) {sites : RoutineSites}
    (found : i.graph.sites? r.id = some sites) (category : Category) :
    Contribution.accumulate i.hierarchies (run i).table sites category .all ≤
      (run i).table.inferred r.id category :=
  quietRule (runQuiet built) ((visited built (v := (r.id, sites))).mpr ⟨r, listed, rfl, body, found⟩)
    category

/-- A table over the start table that satisfies the rule of every body. -/
structure Solves (i : Setting) (t : EffectTable) : Prop where
  aboveSeed : seed i ≤ t
  undeclared : ∀ r ∈ i.program.routines, ∀ category, r.declared category = none →
    t.resolved r.id category = t.inferred r.id category
  declared : ∀ r ∈ i.program.routines, ∀ category kinds, r.declared category = some kinds →
    t.resolved r.id category = .ofKinds (i.hierarchies.get category) kinds
  rule : ∀ r ∈ i.program.routines, r.hasBody = true → ∀ sites, i.graph.sites? r.id = some sites →
    ∀ category, Contribution.accumulate i.hierarchies t sites category .all ≤ t.inferred r.id category

theorem runSolves (built : CallGraph.ofProgram i.program i.hierarchies = .ok i.graph) :
    Solves i (run i).table where
  aboveSeed := seedLeRun built
  undeclared r listed category free := by
    obtain ⟨e, found, entry⟩ := (runShaped built).entry r listed
    simp only [EffectTable.resolved, EffectTable.inferred, found]
    exact (entry.category category).settled free
  declared r listed category kinds given := by
    obtain ⟨e, found, entry⟩ := (runShaped built).entry r listed
    simp only [EffectTable.resolved, found]
    exact (entry.category category).final kinds given
  rule r listed body sites found category := runRule built listed body found category

theorem solvesSettled (built : CallGraph.ofProgram i.program i.hierarchies = .ok i.graph)
    {t : EffectTable} (solves : Solves i t) : t.Settled := by
  intro id e found category plain
  cases first : (seed i).get? id with
  | none =>
    rw [EffectTable.noneOfLe solves.aboveSeed first] at found
    contradiction
  | some old =>
    obtain ⟨e', there, smaller⟩ := EffectTable.someOfLe solves.aboveSeed first
    rw [found] at there
    cases there
    have shape := seedShaped (i := i) (CallGraph.ofProgramOk.mp built).1
    obtain ⟨r, listed, rfl, entry⟩ := shape.only id old first
    have flag := (RoutineEffects.getLe smaller category).2.2
    rw [(entry.category category).declared, plain] at flag
    have same := solves.undeclared r listed category (by simpa using flag)
    simpa only [EffectTable.resolved, EffectTable.inferred, found] using same

theorem convergedLe (built : CallGraph.ofProgram i.program i.hierarchies = .ok i.graph)
    (done : (run i).metrics.converged = true) {t : EffectTable} (solves : Solves i t) :
    (run i).table ≤ t := by
  apply convergedInvariant (P := fun s => s ≤ t) (seedSettled built) rfl done
  · intro s v member below
    obtain ⟨r, listed, name, body, found⟩ := (visited built).mp member
    apply visitLe below (solvesSettled built solves)
    rw [← name] at found ⊢
    exact solves.rule r listed body v.2 found
  · exact solves.aboveSeed

theorem runLeast (built : CallGraph.ofProgram i.program i.hierarchies = .ok i.graph)
    (done : (run i).metrics.converged = true) : IsLeast {t | Solves i t} (run i).table :=
  ⟨runSolves built, fun _ solves => convergedLe built done solves⟩

theorem visitInferred {h : Hierarchies} (t : EffectTable) (v : Visit) (id : RoutineId)
    (category : Category) : (visit h t v).1.inferred id category =
      if id = v.1 then
        (t.inferred id category).union (Contribution.accumulate h t v.2 category .all)
      else t.inferred id category := by
  rw [visitTable]
  unfold EffectTable.inferred
  rw [EffectTable.getModify]
  by_cases same : id = v.1
  · rw [if_pos same, if_pos same]
    cases t.get? id with
    | none => rfl
    | some e => simp only [Option.map_some, absorbedGet, CategoryEffects.absorbInferred]
  · rw [if_neg same, if_neg same]

theorem seedInferred (built : CallGraph.ofProgram i.program i.hierarchies = .ok i.graph)
    {v : Visit} (member : v ∈ runVisits i) (category : Category) :
    (seed i).inferred v.1 category = ∅ := by
  obtain ⟨r, listed, name, body, _⟩ := (visited built).mp member
  have distinct := (CallGraph.ofProgramOk.mp built).1
  have entry : (seed i).get? v.1 = some (seedRoutine i r) := by
    rw [seedGet distinct, (routineFound distinct).mpr ⟨listed, name⟩]
    rfl
  rw [EffectTable.inferredOfGet entry]
  cases category with
  | raises => exact seedBodyInferred body .raises
  | tags => exact seedBodyInferred body .tags

theorem convergedExact (built : CallGraph.ofProgram i.program i.hierarchies = .ok i.graph)
    (done : (run i).metrics.converged = true) {v : Visit} (member : v ∈ runVisits i)
    (category : Category) : (run i).table.inferred v.1 category ≤
      Contribution.accumulate i.hierarchies (run i).table v.2 category .all := by
  have both : (run i).table.Settled ∧ ∀ v ∈ runVisits i, ∀ category,
      (run i).table.inferred v.1 category ≤
        Contribution.accumulate i.hierarchies (run i).table v.2 category .all := by
    apply convergedInvariant (P := fun t => t.Settled ∧ ∀ v ∈ runVisits i, ∀ category,
      t.inferred v.1 category ≤ Contribution.accumulate i.hierarchies t v.2 category .all)
      (seedSettled built) rfl done
    · rintro t w inside ⟨settled, held⟩
      refine ⟨visitSettled settled w, ?_⟩
      intro v member category
      have grown : Contribution.accumulate i.hierarchies t v.2 category .all ≤
          Contribution.accumulate i.hierarchies (visit i.hierarchies t w).1 v.2 category .all :=
        Contribution.accumulateLe (leVisit settled w) v.2
      rw [visitInferred]
      split
      · next same =>
        -- one name has one list of sites
        have sites : v.2 = w.2 := by
          obtain ⟨_, _, _, _, left⟩ := (visited built).mp member
          obtain ⟨_, _, _, _, right⟩ := (visited built).mp inside
          rw [same, right] at left
          exact (Option.some.inj left).symm
        rw [← sites]
        exact EffectSet.unionLe ((held v member category).trans grown) grown
      · exact (held v member category).trans grown
    · refine ⟨seedSettled built, ?_⟩
      intro v member category
      rw [seedInferred built member]
      exact EffectSet.emptyLe _
  exact both.2 v member category

theorem convergedRunIsLeastSolution
    (built : CallGraph.ofProgram i.program i.hierarchies = .ok i.graph)
    (done : (run i).metrics.converged = true) :
    IsLeast {t | Solves i t} (run i).table ∧
      ∀ r ∈ i.program.routines, r.hasBody = true →
        ∃ sites, i.graph.sites? r.id = some sites ∧ ∀ category,
          (run i).table.inferred r.id category =
            Contribution.accumulate i.hierarchies (run i).table sites category .all := by
  refine ⟨runLeast built done, ?_⟩
  intro r listed body
  obtain ⟨sites, found, _⟩ := CallGraph.sitesOfRoutine built listed
  refine ⟨sites, found, ?_⟩
  intro category
  apply le_antisymm
  · exact convergedExact built done (v := (r.id, sites))
      ((visited built).mpr ⟨r, listed, rfl, body, found⟩) category
  · exact runRule built listed body found category

/- Two routines that call each other, one of them under a handler, over a foreign one. `Timeout` is
declared nowhere. -/
def retryLoop : Program :=
  { unit := "retry"
    routines := [
      { id := "load"
        body := some [
          .protect [.expr (.call (.routine "read") [] .zero), .expr (.call (.routine "retry") [] .zero)]
            [.mk ["KeyError"] []] none] },
      { id := "retry"
        body := some [.expr (.call (.routine "load") [] .zero), .raise (some "Timeout") [] .zero] },
      { id := "read"
        origin := .foreign
        effects := { raises := some ["IOError"], tags := some ["ReadIOEffect"] } }] }

def retrySetting : Setting :=
  { program := retryLoop
    graph := (CallGraph.ofProgram retryLoop .builtin).toOption.getD ⟨[]⟩
    hierarchies := .builtin
    config := .ofPreset .permissive }

theorem retryLoopLeastSolution :
    (run retrySetting).table.inferred "load" .raises = .known (.ofList ["IOError", "Timeout"]) ∧
      IsLeast {t | Solves retrySetting t} (run retrySetting).table ∧
      ∀ r ∈ retryLoop.routines, r.hasBody = true →
        ∃ sites, retrySetting.graph.sites? r.id = some sites ∧ ∀ category,
          (run retrySetting).table.inferred r.id category =
            Contribution.accumulate .builtin (run retrySetting).table sites category .all :=
  ⟨by decide +kernel,
    convergedRunIsLeastSolution (i := retrySetting) (by decide +kernel) (by decide +kernel)⟩

end EffectAudit.Inference
