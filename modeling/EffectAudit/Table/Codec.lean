import EffectAudit.EffectSet.Codec
import EffectAudit.Table
/-! Effect tables as JSON. -/
namespace EffectAudit

namespace NameMap

variable {β : Type}

def toJson (value : β → Json) (m : NameMap β) : Json :=
  .object (m.entries.map fun (name, b) => (name, value b))

def ofJson? (value : Json → Option β) : Json → Option (NameMap β)
  | .object fields => do
    let entries ← fields.mapM fun (name, json) => return (name, ← value json)
    return NameMap.ofList entries
  | _ => none

end NameMap

namespace CategoryEffects

def toJson (e : CategoryEffects) : Json :=
  .object [("resolved", e.resolved.toJson), ("inferred", e.inferred.toJson),
    ("declared", .bool e.declared)]

def ofJson? (json : Json) : Option CategoryEffects := do
  match ← Json.format.record? ["resolved", "inferred", "declared"] json with
  | [resolved, inferred, declared] =>
    let resolved ← Field.required EffectSet.ofJson? resolved
    let inferred ← Field.required EffectSet.ofJson? inferred
    let declared ← Field.required Json.format.bool? declared
    return ⟨resolved, inferred, declared⟩
  | _ => none

end CategoryEffects

namespace RoutineEffects

def toJson (e : RoutineEffects) : Json :=
  .object [("routine", .string e.routine), ("raises", e.raises.toJson), ("tags", e.tags.toJson),
    ("analyzed", .bool e.analyzed), ("dispatched", .bool e.dispatched)]

def ofJson? (json : Json) : Option RoutineEffects := do
  match ← Json.format.record? ["routine", "raises", "tags", "analyzed", "dispatched"] json with
  | [routine, raises, tags, analyzed, dispatched] =>
    let routine ← Field.required Json.format.text? routine
    let raises ← Field.required CategoryEffects.ofJson? raises
    let tags ← Field.required CategoryEffects.ofJson? tags
    let analyzed ← Field.required Json.format.bool? analyzed
    let dispatched ← Field.withDefault false Json.format.bool? dispatched
    return ⟨routine, raises, tags, analyzed, dispatched⟩
  | _ => none

end RoutineEffects

namespace EffectTable

def toJson (t : EffectTable) : Json :=
  .object [("routines", t.routines.toJson RoutineEffects.toJson)]

def ofJson? (json : Json) : Option EffectTable := do
  match ← Json.format.record? ["routines"] json with
  | [routines] =>
    let routines ← Field.required (NameMap.ofJson? RoutineEffects.ofJson?) routines
    return ⟨routines⟩
  | _ => none

end EffectTable
end EffectAudit
