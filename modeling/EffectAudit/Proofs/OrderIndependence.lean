import Mathlib.Data.List.Perm.Basic
import EffectAudit.Proofs.Findings
import EffectAudit.Proofs.Inference.PassBound
import EffectAudit.Proofs.Site.Lookup
/-! The order in which routines are listed and the order in which passes visit them do not matter. The
rules mention no order, so both orders have the same solutions, and with the derived bound both runs
end in the least of them. Findings are then the same routine by routine. -/
namespace EffectAudit

structure SameFindings (a b : UnitResult) : Prop where
  table : a.table = b.table
  reports : ∀ id, a.reports.filter (·.routine == id) = b.reports.filter (·.routine == id)
  violations : ∀ id, a.violations.filter (·.routine == id) = b.violations.filter (·.routine == id)

inductive Agree : Except Error UnitResult → Except Error UnitResult → Prop where
  | failed (e e' : Error) : Agree (.error e) (.error e')
  | done {a b : UnitResult} (same : SameFindings a b) : Agree (.ok a) (.ok b)

section Shuffled

variable {program : Program} {routines : List Routine} (shuffled : routines.Perm program.routines)
include shuffled

theorem shuffledDistinct (distinct : (program.routines.map (·.id)).Nodup) :
    (routines.map (·.id)).Nodup :=
  ((shuffled.map _).nodup_iff).mpr distinct

theorem shuffledRoutine (distinct : (program.routines.map (·.id)).Nodup) (id : RoutineId) :
    program.routine? id = ({ program with routines } : Program).routine? id := by
  apply Option.ext
  intro r
  have other := @Inference.routineFound { program with routines } (shuffledDistinct shuffled distinct) id r
  rw [Inference.routineFound distinct, other, shuffled.mem_iff]

theorem shuffledGraph {h : Hierarchies} {g : CallGraph}
    (built : CallGraph.ofProgram program h = .ok g) :
    ∃ g', CallGraph.ofProgram { program with routines } h = .ok g' ∧
      ∀ id, g'.sites? id = g.sites? id := by
  obtain ⟨distinct, globals, walked⟩ := CallGraph.ofProgramOk.mp built
  obtain ⟨sites, walked', reordered⟩ := List.perm_comp_forall₂ shuffled walked
  have built' : CallGraph.ofProgram { program with routines } h = .ok ⟨sites⟩ := by
    refine CallGraph.ofProgramOk.mpr ⟨shuffledDistinct shuffled distinct, globals, ?_⟩
    refine walked'.imp ?_
    intro r s ok
    refine Collect.routineSitesAlike ok ⟨rfl, fun _ _ _ legal => legal, rfl, ?_, fun _ => rfl⟩
    intro id _
    exact congrArg _ (shuffledRoutine shuffled distinct id)
  refine ⟨⟨sites⟩, built', ?_⟩
  intro id
  apply Option.ext
  intro s
  rw [CallGraph.sitesOfName (CallGraph.builtDistinct built'),
    CallGraph.sitesOfName (CallGraph.builtDistinct built), reordered.mem_iff]

theorem shuffledSolves {config : Config} {order : VisitOrder} {registry : Registry} {h : Hierarchies}
    {g g' : CallGraph} (distinct : (program.routines.map (·.id)).Nodup)
    (sites : ∀ id, g'.sites? id = g.sites? id) (t : EffectTable) :
    Inference.Solves (inferenceOf config registry program h g) t ↔
      Inference.Solves (inferenceOf { config with visitOrder := order } registry
        { program with routines } h g') t := by
  have start : Inference.seed (inferenceOf config registry program h g) =
      Inference.seed (inferenceOf { config with visitOrder := order } registry
        { program with routines } h g') := by
    apply EffectTable.ext
    intro id
    have left := Inference.seedGet (i := inferenceOf config registry program h g) distinct id
    have right := Inference.seedGet (i := inferenceOf { config with visitOrder := order } registry
      { program with routines } h g') (shuffledDistinct shuffled distinct) id
    have found : (inferenceOf config registry program h g).program.routine? id =
        (inferenceOf { config with visitOrder := order } registry
          { program with routines } h g').program.routine? id :=
      shuffledRoutine shuffled distinct id
    rw [left, right, found]
    rfl
  constructor
  · rintro ⟨above, undeclared, declared, rule⟩
    refine ⟨start ▸ above, fun r member => undeclared r (shuffled.mem_iff.mp member),
      fun r member => declared r (shuffled.mem_iff.mp member), ?_⟩
    intro r member body own found
    exact rule r (shuffled.mem_iff.mp member) body own ((sites r.id).symm.trans found)
  · rintro ⟨above, undeclared, declared, rule⟩
    refine ⟨start ▸ above, fun r member => undeclared r (shuffled.mem_iff.mpr member),
      fun r member => declared r (shuffled.mem_iff.mpr member), ?_⟩
    intro r member body own found
    exact rule r (shuffled.mem_iff.mpr member) body own ((sites r.id).trans found)

theorem shuffledTable {config : Config} (order : VisitOrder) (registry : Registry) {h : Hierarchies}
    {g g' : CallGraph} (auto : config.maxPasses = 0) (fits : program.bodyCount < Config.countLimit)
    (built : CallGraph.ofProgram program h = .ok g)
    (built' : CallGraph.ofProgram { program with routines } h = .ok g')
    (sites : ∀ id, g'.sites? id = g.sites? id) :
    (Inference.run (inferenceOf config registry program h g)).table =
      (Inference.run (inferenceOf { config with visitOrder := order } registry
        { program with routines } h g')).table := by
  have bodies : ({ program with routines } : Program).bodyCount = program.bodyCount :=
    shuffled.countP_eq _
  have least := Inference.runLeast (i := inferenceOf config registry program h g) built
    (Inference.derivedBoundConverges built auto fits)
  have least' := Inference.runLeast (i := inferenceOf { config with visitOrder := order } registry
    { program with routines } h g') built'
    (Inference.derivedBoundConverges built' auto (bodies ▸ fits))
  have solutions : {t | Inference.Solves (inferenceOf config registry program h g) t} =
      {t | Inference.Solves (inferenceOf { config with visitOrder := order } registry
        { program with routines } h g') t} :=
    Set.ext fun t => shuffledSolves shuffled (CallGraph.ofProgramOk.mp built).1 sites t
  rw [solutions] at least
  exact least.unique least'

end Shuffled

theorem shuffledFindings {program : Program} {routines : List Routine}
    (shuffled : routines.Perm program.routines) {config : Config} (order : VisitOrder)
    {registry : Registry} {h : Hierarchies} {g g' : CallGraph} (auto : config.maxPasses = 0)
    (fits : program.bodyCount < Config.countLimit) (built : CallGraph.ofProgram program h = .ok g)
    (built' : CallGraph.ofProgram { program with routines } h = .ok g')
    (sites : ∀ id, g'.sites? id = g.sites? id) :
    SameFindings (concluded config registry program h g)
      (concluded { config with visitOrder := order } registry { program with routines } h g') := by
  have table : (concluded config registry program h g).table =
      (concluded { config with visitOrder := order } registry { program with routines } h g').table :=
    shuffledTable shuffled order registry auto fits built built' sites
  have distinct := (CallGraph.ofProgramOk.mp built).1
  refine ⟨table, ?_, ?_⟩
  · intro id
    rw [concludedReports built, concludedReports built', ← table, sites]
  · intro id
    rw [concludedViolations built, concludedViolations built', ← table,
      ← shuffledRoutine shuffled distinct]
    congr 1
    funext r
    exact ownViolationsSame rfl (sites r.id).symm fun _ _ => rfl

theorem shuffledAnalysis {program : Program} {routines : List Routine}
    (shuffled : routines.Perm program.routines) (config : Config) (order : VisitOrder)
    {registry : Registry} (auto : config.maxPasses = 0)
    (fits : program.bodyCount < Config.countLimit) {a : UnitResult}
    (ok : analyze config registry program = .ok a) :
    ∃ b, analyze { config with visitOrder := order } registry { program with routines } = .ok b ∧
      SameFindings a b := by
  obtain ⟨h, g, valid, hierarchies, built, rfl⟩ := analyzeOk.mp ok
  obtain ⟨g', built', sites⟩ := shuffledGraph shuffled built
  exact ⟨_, analyzeOk.mpr ⟨h, g', valid, hierarchies, built', rfl⟩,
    shuffledFindings shuffled order auto fits built built' sites⟩

/- The same units fail: an analysis that succeeds in one order succeeds in the other, both ways. -/
theorem orderIndependent {program : Program} {routines : List Routine}
    (shuffled : routines.Perm program.routines) (config : Config) (order : VisitOrder)
    (registry : Registry) (auto : config.maxPasses = 0)
    (fits : program.bodyCount < Config.countLimit) :
    Agree (analyze config registry program)
      (analyze { config with visitOrder := order } registry { program with routines }) := by
  cases left : analyze config registry program with
  | ok a =>
    obtain ⟨b, right, same⟩ := shuffledAnalysis shuffled config order auto fits left
    rw [right]
    exact .done same
  | error e =>
    cases right : analyze { config with visitOrder := order } registry { program with routines } with
    | error e' => exact .failed e e'
    | ok b =>
      have bodies : ({ program with routines } : Program).bodyCount = program.bodyCount :=
        shuffled.countP_eq _
      have back : program.routines.Perm ({ program with routines } : Program).routines := shuffled.symm
      obtain ⟨a, again, _⟩ := shuffledAnalysis back { config with visitOrder := order }
        config.visitOrder auto (bodies ▸ fits) right
      rw [left] at again
      contradiction

theorem retryLoopReversed :
    (analyze (.ofPreset .permissive) {} Inference.retryLoop).isOk = true ∧
      Agree (analyze (.ofPreset .permissive) {} Inference.retryLoop)
        (analyze { Config.ofPreset .permissive with visitOrder := .calleesFirst } {}
          { Inference.retryLoop with routines := Inference.retryLoop.routines.reverse }) :=
  ⟨by decide +kernel, orderIndependent (List.reverse_perm _) _ _ _ rfl (by decide)⟩

end EffectAudit
