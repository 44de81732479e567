import EffectAudit.Report
import EffectAudit.Site.Codec
/-! Violations, diagnostics and reports as JSON. -/
namespace EffectAudit

def Violation.toJson (v : Violation) : Json :=
  let shared := [("kinds", Json.strings v.kinds), ("span", v.span.toJson)]
  let category := ("category", Json.string v.category.name)
  let fields := match v with
    | incompatibleBinding _ target value .. =>
      [("target", target.toJson), ("value", value.toJson), category] ++ shared
    | forbiddenTag .. => shared
    | _ => category :: shared
  .form "violation" v.code (("routine", .string v.routine) :: fields)

def Diagnostic.toJson (d : Diagnostic) : Json :=
  .object [("severity", .string d.severity.name), ("code", .string d.code),
    ("routine", .string d.routine), ("span", d.span.toJson), ("message", .string d.message)]

def EffectReport.toJson (r : EffectReport) : Json :=
  let label := match r.label with
    | none => []
    | some label => [("label", Json.string label)]
  .object ([("routine", .string r.routine), ("marker", .nat r.marker)] ++ label ++
    [("span", r.span.toJson), ("raises", r.raises.toJson), ("tags", r.tags.toJson)])

end EffectAudit
