import EffectAudit.Config.Error
import EffectAudit.Hierarchy
/-! How a unit is analysed: a preset, and the fields that may be set on top of it. -/
namespace EffectAudit

inductive Preset where
  | permissive
  | standard
  | strict
  deriving DecidableEq, Repr

namespace Preset

instance : Inhabited Preset := ⟨standard⟩

def name : Preset → String
  | permissive => "permissive"
  | standard => "standard"
  | strict => "strict"

/-- Upper and lower case are the same. No character outside ASCII has one of the letters of a preset's
name as its lower case, so folding ASCII letters is enough. -/
def ofName? (name : String) : Option Preset :=
  [permissive, standard, strict].find? (·.name == name.toLower)

end Preset

inductive VisitOrder where
  | declaration
  | calleesFirst
  deriving DecidableEq, Repr

namespace VisitOrder

instance : Inhabited VisitOrder := ⟨calleesFirst⟩

def name : VisitOrder → String
  | declaration => "declaration"
  | calleesFirst => "callees_first"

def ofName? (name : String) : Option VisitOrder :=
  [declaration, calleesFirst].find? (·.name == name)

end VisitOrder

structure Config where
  preset : Preset
  maxPasses : Nat
  visitOrder : VisitOrder
  strictKinds : Bool
  trackDefects : Bool
  reportMarkers : Bool
  /-- Whether independent units may be analysed at the same time; no answer depends on it. -/
  parallelUnits : Bool
  deriving DecidableEq, Repr

namespace Config

def name : String := "EffectConfig"

def passesLimit : Nat := 1000000

/-- Largest count that is kept; larger ones stop here. A derived pass bound stops here too, so results
about it ask for fewer bodies than this: no list of routines is as long. -/
def countLimit : Nat := UInt64.size - 1

def ofPreset (preset : Preset) : Config :=
  { preset
    maxPasses := 0
    visitOrder := if preset = .permissive then .declaration else .calleesFirst
    strictKinds := preset = .strict
    trackDefects := preset = .strict
    reportMarkers := preset ≠ .permissive
    parallelUnits := true }

instance : Inhabited Config := ⟨ofPreset default⟩

def hierarchyOptions (c : Config) : Hierarchy.Options := ⟨c.strictKinds, c.trackDefects⟩

def passBound (c : Config) (routines height : Nat) : Nat :=
  if c.maxPasses > 0 then c.maxPasses
  else min (max routines 1 * max height 1 + 1) countLimit

def validate (c : Config) : Except ConfigError Unit :=
  if c.maxPasses > passesLimit then .error (.passesOutOfRange c.maxPasses passesLimit) else .ok ()

structure Overrides where
  maxPasses : Option Nat := none
  visitOrder : Option VisitOrder := none
  strictKinds : Option Bool := none
  trackDefects : Option Bool := none
  reportMarkers : Option Bool := none
  parallelUnits : Option Bool := none
  deriving DecidableEq, Repr

def apply (c : Config) (o : Overrides) : Config :=
  { preset := c.preset
    maxPasses := o.maxPasses.getD c.maxPasses
    visitOrder := o.visitOrder.getD c.visitOrder
    strictKinds := o.strictKinds.getD c.strictKinds
    trackDefects := o.trackDefects.getD c.trackDefects
    reportMarkers := o.reportMarkers.getD c.reportMarkers
    parallelUnits := o.parallelUnits.getD c.parallelUnits }

def overrides (c : Config) : Overrides :=
  let base := ofPreset c.preset
  { maxPasses := if c.maxPasses = base.maxPasses then none else some c.maxPasses
    visitOrder := if c.visitOrder = base.visitOrder then none else some c.visitOrder
    strictKinds := if c.strictKinds = base.strictKinds then none else some c.strictKinds
    trackDefects := if c.trackDefects = base.trackDefects then none else some c.trackDefects
    reportMarkers := if c.reportMarkers = base.reportMarkers then none else some c.reportMarkers
    parallelUnits := if c.parallelUnits = base.parallelUnits then none else some c.parallelUnits }

theorem applyOverrides (c : Config) : (ofPreset c.preset).apply c.overrides = c := by
  simp only [apply, overrides]
  cases c
  congr 1 <;> split <;> simp_all [ofPreset]

end Config
end EffectAudit
