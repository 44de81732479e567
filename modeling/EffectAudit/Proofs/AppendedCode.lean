import EffectAudit.Proofs.Inference.PassBound
import EffectAudit.Proofs.Program.Rewritten
import EffectAudit.Proofs.Tree.Flattening
/-! Code that is added at the end of bodies adds effects and removes none. The walk does not look ahead,
so the old sites are still there, with the same handlers around them. Hence the rules of the new unit
ask for at least as much as those of the old one, and what solves the new unit solves the old one. -/
namespace EffectAudit

def Program.Extended (p p' : Program) : Prop := p.Rewritten List.IsPrefix p'

theorem Contribution.accumulateAppend {h : Hierarchies} {table : EffectTable} {category : Category}
    (id : RoutineId) (first others : List Site.Event) :
    accumulate h table (.ofEvents id first) category .all ≤
      accumulate h table (.ofEvents id (first ++ others)) category .all := by
  rw [accumulateEvents, accumulateEvents, admittedAll, admittedAll, ofEventsAppend]
  exact EffectSet.leUnionLeft _ _

section Extended

variable {p p' : Program} {h : Hierarchies} {g g' : CallGraph} {config : Config} {registry : Registry}

theorem extendedSites (extended : p.Extended p') (built : CallGraph.ofProgram p h = .ok g)
    (built' : CallGraph.ofProgram p' h = .ok g') {r r' : Routine} (listed : r ∈ p.routines)
    (listed' : r' ∈ p'.routines) (changed : r.Rewritten List.IsPrefix r') {sites : RoutineSites}
    (found : g.sites? r.id = some sites) :
    ∃ sites', g'.sites? r'.id = some sites' ∧ ∀ table category,
      Contribution.accumulate h table sites category .all ≤
        Contribution.accumulate h table sites' category .all := by
  obtain ⟨own, there, walked⟩ := CallGraph.sitesOfRoutine built listed
  cases found.symm.trans there
  obtain ⟨sites', found', walked'⟩ := CallGraph.sitesOfRoutine built' listed'
  refine ⟨sites', found', ?_⟩
  obtain ⟨scope, events, walk, rfl⟩ := Collect.routineWalk walked
  obtain ⟨scope', events', walk', rfl⟩ := Collect.routineWalk walked'
  obtain ⟨more, longer⟩ := Routine.rewrittenStmts (List.prefix_refl []) changed
  rw [rewrittenWalk extended changed, ← longer] at walk'
  obtain ⟨middle, first, others, before, _, rfl⟩ := Collect.walkSplit walk'
  obtain ⟨_, rfl⟩ := Collect.walkUnique walk before
  intro table category
  rw [← Routine.rewrittenName changed]
  exact Contribution.accumulateAppend r.id first others

theorem extendedSolves (extended : p.Extended p') (built : CallGraph.ofProgram p h = .ok g)
    (built' : CallGraph.ofProgram p' h = .ok g') {t : EffectTable}
    (solves : Inference.Solves (inferenceOf config registry p' h g') t) :
    Inference.Solves (inferenceOf config registry p h g) t where
  aboveSeed := (Inference.rewrittenSeed extended).symm.trans_le solves.aboveSeed
  undeclared r listed category free := by
    obtain ⟨r', listed', body, rfl, _⟩ := rewrittenRoutine extended listed
    exact solves.undeclared _ listed' category free
  declared r listed category kinds given := by
    obtain ⟨r', listed', body, rfl, _⟩ := rewrittenRoutine extended listed
    exact solves.declared _ listed' category kinds given
  rule r listed body sites found category := by
    obtain ⟨r', listed', changed⟩ := rewrittenRoutine extended listed
    obtain ⟨sites', found', larger⟩ := extendedSites extended built built' listed listed' changed found
    have body' : r'.hasBody = true := (Routine.rewrittenBody changed).trans body
    have rule := solves.rule r' listed' body' sites' found' category
    rw [← Routine.rewrittenName changed] at rule
    exact (larger t category).trans rule

theorem moreCodeMoreEffects (extended : p.Extended p') (auto : config.maxPasses = 0)
    (fits : p.bodyCount < Config.countLimit) {a b : UnitResult}
    (before : analyze config registry p = .ok a) (after : analyze config registry p' = .ok b)
    (id : RoutineId) (category : Category) :
    a.table.inferred id category ≤ b.table.inferred id category ∧
      a.table.resolved id category ≤ b.table.resolved id category := by
  obtain ⟨h, g, _, hierarchies, built, rfl⟩ := analyzeOk.mp before
  obtain ⟨h', g', _, hierarchies', built', rfl⟩ := analyzeOk.mp after
  have kinds : p'.hierarchies config.hierarchyOptions = p.hierarchies config.hierarchyOptions := by
    obtain ⟨routines, rfl, _⟩ := extended
    rfl
  cases hierarchies.symm.trans (kinds.symm.trans hierarchies')
  have below := Inference.convergedLe (i := inferenceOf config registry p h g) built
    (Inference.derivedBoundConverges built auto fits)
    (extendedSolves extended built built' (Inference.runSolves built'))
  exact ⟨EffectTable.inferredLe below id category, EffectTable.resolvedLe below id category⟩

end Extended

def retryLonger : Program :=
  { Inference.retryLoop with
    routines := Inference.retryLoop.routines.map fun r =>
      if r.id = "load" then
        { r with body := r.body.map (· ++ [.raise (some "KeyError") [] .zero]) }
      else r }

theorem retryLoopLonger :
    ∃ a b, analyze (.ofPreset .permissive) {} Inference.retryLoop = .ok a ∧
      analyze (.ofPreset .permissive) {} retryLonger = .ok b ∧
      (a.table.inferred "retry" .raises).kinds? = some ["IOError", "Timeout"] ∧
      (b.table.inferred "retry" .raises).kinds? = some ["IOError", "KeyError", "Timeout"] ∧
      a.table.inferred "retry" .raises ≤ b.table.inferred "retry" .raises := by
  have extended : Inference.retryLoop.Extended retryLonger := by
    refine ⟨_, rfl, .cons ⟨_, rfl, .some ⟨_, rfl⟩⟩ (.cons ⟨_, rfl, .some ?_⟩ (.cons ⟨_, rfl, .none⟩ .nil))⟩
    exact List.prefix_refl _
  have one : analyze (.ofPreset .permissive) {} Inference.retryLoop =
      .ok (concluded _ _ _ .builtin Inference.retrySetting.graph) :=
    analyzeOk.mpr ⟨_, _, rfl, by decide +kernel, by decide +kernel, rfl⟩
  have two : analyze (.ofPreset .permissive) {} retryLonger = .ok (concluded _ _ _ .builtin
      ((CallGraph.ofProgram retryLonger .builtin).toOption.getD ⟨[]⟩)) :=
    analyzeOk.mpr ⟨_, _, rfl, by decide +kernel, by decide +kernel, rfl⟩
  exact ⟨_, _, one, two, by decide +kernel, by decide +kernel,
    (moreCodeMoreEffects extended rfl (by decide) one two "retry" .raises).1⟩

end EffectAudit
