import EffectAudit.Assignability
import EffectAudit.Inference
import EffectAudit.Report
/-! One unit from end to end. Units are independent of each other. -/
namespace EffectAudit

structure UnitResult where
  unit : String
  table : EffectTable
  violations : List Violation
  reports : List EffectReport
  diagnostics : List Diagnostic
  metrics : Metrics

namespace UnitResult

def hasErrors (r : UnitResult) : Bool := !r.violations.isEmpty

def published (r : UnitResult) : PublishedEffects := .ofTable r.unit r.table

end UnitResult

def Config.check (c : Config) : Except Error Unit := c.validate.mapError .config

def analyze (config : Config) (registry : Registry) (program : Program) :
    Except Error UnitResult := do
  config.check
  let hierarchies ← program.hierarchies config.hierarchyOptions
  let graph ← CallGraph.ofProgram program hierarchies
  let outcome := Inference.run { program, graph, hierarchies, config, registry }
  let table := outcome.table
  let violations := Assignability.checkProgram hierarchies table program graph
  let reports := if config.reportMarkers then EffectReport.all graph hierarchies table else []
  return {
    unit := program.unit
    table
    violations
    reports
    diagnostics :=
      violations.map .ofViolation ++ reports.map (EffectReport.toDiagnostic hierarchies)
    metrics := outcome.metrics }

end EffectAudit
