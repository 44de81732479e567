import EffectAudit.Coverage
import EffectAudit.Format
/-! Effect sets and coverages as JSON. -/
namespace EffectAudit

def EffectSet.toJson : EffectSet → Json
  | unknown => .string "unknown"
  | known kinds => .tagged "known" (.strings kinds.toList)

def Coverage.toJson : Coverage → Json
  | all => .string "all"
  | kinds list => .tagged "kinds" (.strings list)

def Json.listChoice? (plain listed : String) (json : Json) : Option (Option (List Kind)) := do
  let (name, content) ← Json.format.choice? [plain, listed] json
  match content with
  | none => if name == plain then return none else failure
  | some content =>
    if name == listed then (Json.format.texts content).map some
    else if name == plain && Json.format.isNone? content == some true then return none
    else failure

def EffectSet.ofJson? (json : Json) : Option EffectSet := do
  match ← json.listChoice? "unknown" "known" with
  | none => return unknown
  | some kinds => return known (NameSet.ofList kinds)

def Coverage.ofJson? (json : Json) : Option Coverage := do
  match ← json.listChoice? "all" "kinds" with
  | none => return all
  | some list => return kinds list

def Category.ofName? (name : String) : Option Category := Category.all.find? (·.name == name)

end EffectAudit
