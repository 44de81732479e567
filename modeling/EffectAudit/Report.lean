import EffectAudit.CallGraph
import EffectAudit.Contribution
import EffectAudit.Violation
/-! What a unit's author is told: violations as errors, and the effects accumulated up to each marker
as information. -/
namespace EffectAudit

inductive Severity where
  | info
  | error
  deriving DecidableEq, Repr

def Severity.name : Severity → String
  | info => "info"
  | error => "error"

structure Diagnostic where
  severity : Severity
  code : String
  routine : RoutineId
  span : Span
  message : String
  deriving DecidableEq, Repr

namespace Diagnostic

def isError (d : Diagnostic) : Bool := d.severity == .error

def text (d : Diagnostic) : String :=
  s!"{d.span.text}: {d.severity.name} [{d.code}]: {d.message}"

def ofViolation (v : Violation) : Diagnostic :=
  ⟨.error, v.code, v.routine, v.span, v.message⟩

end Diagnostic

structure EffectReport where
  routine : RoutineId
  marker : Nat
  label : Option String
  span : Span
  raises : EffectSet
  tags : EffectSet
  deriving DecidableEq, Repr

namespace EffectReport

variable (graph : CallGraph) (h : Hierarchies) (table : EffectTable)

def ofMarker (sites : RoutineSites) (marker : Site.Marker) : EffectReport :=
  { routine := sites.routine
    marker := marker.index
    label := marker.label
    span := marker.span
    raises := Contribution.accumulate h table sites .raises (.upTo marker)
    tags := Contribution.accumulate h table sites .tags (.upTo marker) }

def atIndex? (routine : RoutineId) (index : Nat) : Option EffectReport := do
  let sites ← graph.sites? routine
  let marker ← sites.marker? index
  return ofMarker h table sites marker

def atLabel? (routine : RoutineId) (label : String) : Option EffectReport := do
  let sites ← graph.sites? routine
  let marker ← sites.markerLabeled? label
  return ofMarker h table sites marker

def all : List EffectReport :=
  graph.sites.flatMap fun sites => sites.markers.map (ofMarker h table sites)

def toDiagnostic (report : EffectReport) : Diagnostic :=
  let place := match report.label with
    | some label => s!"marker '{label}'"
    | none => s!"marker {report.marker}"
  let raises := report.raises.describe h.raises
  let tags := report.tags.describe h.tags
  { severity := .info
    code := "effects"
    routine := report.routine
    span := report.span
    message := s!"effects of '{report.routine}' at {place}: raises {raises}, tags {tags}" }

end EffectReport
end EffectAudit
