import EffectAudit.Config
import EffectAudit.Yaml.Format
/-! Configurations as YAML: a version, a preset, and the fields set on top of it. Unknown keys are
refused, so that a misspelt field is not ignored. -/
namespace EffectAudit.Config

def version : Nat := 1

def strictRecord? (keys : List String) (node : Yaml.Node) : Option (List (Option Yaml.Node)) := do
  let entries ← Yaml.format.entries? keys node
  if entries.all fun (key, _) => keys.contains key then Yaml.format.record? keys node else none

def visitOrderOf? (node : Yaml.Node) : Option VisitOrder :=
  Yaml.format.oneOf ([VisitOrder.declaration, .calleesFirst].map fun order => (order.name, order)) node

def overridesOf? (node : Yaml.Node) : Option Overrides := do
  let fields ← strictRecord? ["max_passes", "visit_order", "strict_kinds", "track_defects",
    "report_markers", "parallel_units"] node
  match fields with
  | [maxPasses, visitOrder, strictKinds, trackDefects, reportMarkers, parallelUnits] =>
    let maxPasses ← Yaml.format.optional Yaml.format.count? maxPasses
    let visitOrder ← Yaml.format.optional visitOrderOf? visitOrder
    let strictKinds ← Yaml.format.optional Yaml.format.bool? strictKinds
    let trackDefects ← Yaml.format.optional Yaml.format.bool? trackDefects
    let reportMarkers ← Yaml.format.optional Yaml.format.bool? reportMarkers
    let parallelUnits ← Yaml.format.optional Yaml.format.bool? parallelUnits
    return ⟨maxPasses, visitOrder, strictKinds, trackDefects, reportMarkers, parallelUnits⟩
  | _ => none

structure Written where
  version : Option UInt32
  preset : String
  overrides : Option Overrides

def Written.ofNode? (node : Yaml.Node) : Option Written := do
  match ← strictRecord? ["version", "preset", "overrides"] node with
  | [version, preset, overrides] =>
    let version ← Yaml.format.optional Yaml.format.uint32? version
    let preset ← Field.required Yaml.format.text? preset
    let overrides ← Yaml.format.optional overridesOf? overrides
    return ⟨version, preset, overrides⟩
  | _ => none

def Written.checkVersion (w : Written) : Except ConfigError Unit :=
  match w.version with
  | none => .error .missingVersion
  | some found => if found.toNat = Config.version then .ok () else .error (.unsupportedVersion found.toNat)

def Written.resolve (w : Written) : Except ConfigError Config := do
  w.checkVersion
  match Preset.ofName? w.preset with
  | none => throw (.unknownPreset w.preset)
  | some preset =>
    let config := (ofPreset preset).apply (w.overrides.getD {})
    config.validate
    return config

def read (text : String) : Except ConfigError Config :=
  match (Yaml.Node.parse? text).bind Written.ofNode? with
  | none => .error .malformedText
  | some written => written.resolve

def Overrides.lines (o : Overrides) : List String :=
  let line (key : String) (value : Option String) : List String :=
    (value.map fun value => s!"  {key}: {value}\n").toList
  line "max_passes" (o.maxPasses.map toString) ++ line "visit_order" (o.visitOrder.map (·.name)) ++
    line "strict_kinds" (o.strictKinds.map toString) ++
    line "track_defects" (o.trackDefects.map toString) ++
    line "report_markers" (o.reportMarkers.map toString) ++
    line "parallel_units" (o.parallelUnits.map toString)

def text (c : Config) : String :=
  let lines := c.overrides.lines
  s!"version: {version}\npreset: {c.preset.name}\n" ++
    (if lines.isEmpty then "" else "overrides:\n") ++ String.join lines

end EffectAudit.Config
