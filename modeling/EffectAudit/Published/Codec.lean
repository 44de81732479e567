import EffectAudit.Json.Reader
import EffectAudit.Published
import EffectAudit.Table.Codec
/-! Published effects as the JSON files that units exchange. -/
namespace EffectAudit

namespace PublishedEntry

def toJson (e : PublishedEntry) : Json :=
  .object [("raises", e.raises.toJson), ("tags", e.tags.toJson)]

def ofJson? (json : Json) : Option PublishedEntry := do
  match ← Json.format.record? ["raises", "tags"] json with
  | [raises, tags] =>
    let raises ← Field.required EffectSet.ofJson? raises
    let tags ← Field.required EffectSet.ofJson? tags
    return ⟨raises, tags⟩
  | _ => none

end PublishedEntry

namespace PublishedEffects

def toJson (p : PublishedEffects) : Json :=
  .object [("version", .nat p.version.toNat), ("unit", .string p.unit),
    ("routines", p.routines.toJson PublishedEntry.toJson)]

def text (p : PublishedEffects) : String := p.toJson.pretty

def ofJson? (json : Json) : Option PublishedEffects := do
  match ← Json.format.record? ["version", "unit", "routines"] json with
  | [version, unit, routines] =>
    let version ← Field.required Json.format.uint32? version
    let unit ← Field.required Json.format.text? unit
    let routines ← Field.required (NameMap.ofJson? PublishedEntry.ofJson?) routines
    return ⟨version, unit, routines⟩
  | _ => none

def checkVersion (p : PublishedEffects) : Except Error PublishedEffects :=
  if p.version = currentVersion then .ok p
  else .error (.publishedVersion p.unit p.version.toNat currentVersion.toNat)

def ofDocument (document : Option Json) : Except Error PublishedEffects :=
  match document.bind ofJson? with
  | none => .error .malformedJson
  | some p => p.checkVersion

def read (text : String) : Except Error PublishedEffects := ofDocument (Json.parse? text)

end PublishedEffects
end EffectAudit
