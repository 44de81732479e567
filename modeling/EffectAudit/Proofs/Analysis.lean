import EffectAudit.Analysis
import EffectAudit.Proofs.CallGraph.Built
/-! What a successful analysis consists of: a valid configuration, both hierarchies, a call graph that
builds, and then the results of inference and of the checks on the table it ends with. -/
namespace EffectAudit

def inferenceOf (config : Config) (registry : Registry) (program : Program) (h : Hierarchies)
    (g : CallGraph) : Inference.Setting :=
  { program, graph := g, hierarchies := h, config, registry }

def concluded (config : Config) (registry : Registry) (program : Program) (h : Hierarchies)
    (g : CallGraph) : UnitResult :=
  let outcome := Inference.run (inferenceOf config registry program h g)
  let violations := Assignability.checkProgram h outcome.table program g
  let reports := if config.reportMarkers then EffectReport.all g h outcome.table else []
  { unit := program.unit
    table := outcome.table
    violations
    reports
    diagnostics := violations.map .ofViolation ++ reports.map (EffectReport.toDiagnostic h)
    metrics := outcome.metrics }

theorem analyzeOk {config : Config} {registry : Registry} {program : Program} {result : UnitResult} :
    analyze config registry program = .ok result ↔
      ∃ h g, config.check = .ok () ∧ program.hierarchies config.hierarchyOptions = .ok h ∧
        CallGraph.ofProgram program h = .ok g ∧ result = concluded config registry program h g := by
  unfold analyze
  constructor
  · intro ok
    obtain ⟨_, valid, ok⟩ := bindOk.mp ok
    obtain ⟨h, hierarchies, ok⟩ := bindOk.mp ok
    obtain ⟨g, built, last⟩ := bindOk.mp ok
    exact ⟨h, g, valid, hierarchies, built, (Except.ok.inj last).symm⟩
  · rintro ⟨h, g, valid, hierarchies, built, rfl⟩
    exact bindOk.mpr ⟨(), valid, bindOk.mpr ⟨h, hierarchies, bindOk.mpr ⟨g, built, rfl⟩⟩⟩

end EffectAudit
