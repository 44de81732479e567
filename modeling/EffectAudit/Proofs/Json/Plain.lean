import Mathlib.Data.List.Basic
import EffectAudit.Format
/-! Values whose numbers are counts and whose texts denote something. Each of them is data of the same
shape, and a reader of records finds in the data what it finds in the value. -/
namespace EffectAudit

namespace Json

inductive Plain : Json → Prop where
  | null : Plain .null
  | bool (value : Bool) : Plain (.bool value)
  | nat {value : Nat} (small : value < UInt64.size) : Plain (.nat value)
  | string (value : String) : Plain (.string value)
  | array {items : List Json} (each : ∀ item ∈ items, Plain item) : Plain (.array items)
  | object {fields : List (String × Json)} (each : ∀ field ∈ fields, Plain field.2) :
      Plain (.object fields)

@[simp] theorem plainNull : Json.null.Plain := .null

@[simp] theorem plainBool (value : Bool) : (Json.bool value).Plain := .bool value

@[simp] theorem plainString (value : String) : (Json.string value).Plain := .string value

@[simp] theorem plainWord (value : UInt32) : (Json.nat value.toNat).Plain :=
  .nat (Nat.lt_trans value.toNat_lt (by decide))

@[simp] theorem plainArray {items : List Json} :
    (Json.array items).Plain ↔ ∀ item ∈ items, item.Plain := by
  refine ⟨?_, .array⟩
  intro plain
  cases plain with
  | array each => exact each

@[simp] theorem plainObject {fields : List (String × Json)} :
    (Json.object fields).Plain ↔ ∀ field ∈ fields, field.2.Plain := by
  refine ⟨?_, .object⟩
  intro plain
  cases plain with
  | object each => exact each

theorem plainList {α : Type} {encode : α → Json} {items : List α}
    (each : ∀ item ∈ items, (encode item).Plain) : (Json.ofList encode items).Plain := by
  rw [ofList, plainArray]
  intro json member
  obtain ⟨item, listed, rfl⟩ := List.mem_map.mp member
  exact each item listed

@[simp] theorem plainStrings (texts : List String) : (Json.strings texts).Plain :=
  plainList fun text _ => plainString text

theorem plainOption {α : Type} {encode : α → Json} {value : Option α}
    (each : ∀ a ∈ value, (encode a).Plain) : (Json.ofOption encode value).Plain := by
  cases value with
  | none => exact .null
  | some a => exact each a rfl

mutual

def asData : Json → Data
  | null => .null
  | bool value => .bool value
  | nat value => .nat value
  | decimal _ => .real
  | string value => .text value
  | array items => .list (itemsAsData items)
  | object fields => .mapping (fieldsAsData fields)
  | illFormed => .null

def itemsAsData : List Json → List Data
  | [] => []
  | item :: rest => item.asData :: itemsAsData rest

def fieldsAsData : List (String × Json) → List (Data × Data)
  | [] => []
  | (key, value) :: rest => (.text key, value.asData) :: fieldsAsData rest

end

theorem itemsAsDataMap (items : List Json) : itemsAsData items = items.map asData := by
  induction items with
  | nil => rfl
  | cons item rest ih => rw [itemsAsData, ih, List.map_cons]

theorem fieldsAsDataMap (fields : List (String × Json)) :
    fieldsAsData fields = fields.map fun field => (.text field.1, field.2.asData) := by
  induction fields with
  | nil => rfl
  | cons field rest ih => rw [fieldsAsData, ih, List.map_cons]

theorem itemsDataOf {items : List Json} (each : ∀ item ∈ items, item.toData? = some item.asData) :
    itemsData? items = some (itemsAsData items) := by
  induction items with
  | nil => rfl
  | cons item rest ih =>
    rw [List.forall_mem_cons] at each
    simp only [itemsData?, itemsAsData, each.1, ih each.2, Option.pure_def, Option.bind_eq_bind,
      Option.bind_some]

theorem fieldsDataOf {fields : List (String × Json)}
    (each : ∀ field ∈ fields, field.2.toData? = some field.2.asData) :
    fieldsData? fields = some (fieldsAsData fields) := by
  induction fields with
  | nil => rfl
  | cons field rest ih =>
    rw [List.forall_mem_cons] at each
    simp only [fieldsData?, fieldsAsData, each.1, ih each.2, Option.pure_def, Option.bind_eq_bind,
      Option.bind_some]

theorem plainData {json : Json} (plain : json.Plain) : json.toData? = some json.asData := by
  induction plain with
  | null => rfl
  | bool value => rfl
  | nat small => rfl
  | string value => rfl
  | array _ ih =>
    rw [toData?, itemsDataOf ih]
    rfl
  | object _ ih =>
    rw [toData?, fieldsDataOf ih]
    rfl

theorem heightListLe {items : List Json} {bound : Nat} :
    heightList items ≤ bound ↔ ∀ item ∈ items, item.height ≤ bound := by
  induction items with
  | nil => simp [heightList]
  | cons item rest ih => rw [heightList, Nat.max_le, ih, List.forall_mem_cons]

theorem heightFieldsLe {fields : List (String × Json)} {bound : Nat} :
    heightFields fields ≤ bound ↔ ∀ field ∈ fields, field.2.height ≤ bound := by
  induction fields with
  | nil => simp [heightFields]
  | cons field rest ih => rw [heightFields, Nat.max_le, ih, List.forall_mem_cons]

mutual

theorem asDataHeight : (json : Json) → json.asData.height = json.height
  | null => rfl
  | bool _ => rfl
  | nat _ => rfl
  | decimal _ => rfl
  | string _ => rfl
  | illFormed => rfl
  | array items => by rw [asData, Data.height, height, itemsAsDataHeight items]
  | object fields => by rw [asData, Data.height, height, fieldsAsDataHeight fields]

theorem itemsAsDataHeight : (items : List Json) →
    Data.heightList (itemsAsData items) = heightList items
  | [] => rfl
  | item :: rest => by
    rw [itemsAsData, Data.heightList, heightList, asDataHeight item, itemsAsDataHeight rest]

theorem fieldsAsDataHeight : (fields : List (String × Json)) →
    Data.heightEntries (fieldsAsData fields) = heightFields fields
  | [] => rfl
  | (key, value) :: rest => by
    rw [fieldsAsData, Data.heightEntries, heightFields, asDataHeight value, fieldsAsDataHeight rest]
    simp [Data.height]

end

end Json

structure Format.Speaks {Node : Type} (f : Format Node) (spoken : Json → Node) : Prop where
  text (value : String) : f.text? (spoken (.string value)) = some value
  nat (value : Nat) : f.nat? (spoken (.nat value)) = some value
  absent : f.isNone? (spoken .null) = some true
  present {json : Json} (plain : json.Plain) (given : json ≠ .null) :
    f.isNone? (spoken json) = some false
  list (items : List Json) : f.list? (spoken (.array items)) = some (items.map spoken)
  entries (keys : List String) (fields : List (String × Json)) :
    f.entries? keys (spoken (.object fields)) =
      some (fields.map fun field => (field.1, spoken field.2))
  tagged (names : List String) (key : String) (content : Json) :
    f.choice? names (spoken (.tagged key content)) = some (key, some (spoken content))
  data {depth : Nat} {json : Json} (plain : json.Plain)
    (shallow : json.height + depth ≤ Json.depthLimit) :
    f.data? depth (spoken json) = some json.asData

theorem jsonSpeaks : Json.format.Speaks id where
  text _ := rfl
  nat _ := rfl
  absent := rfl
  present := by
    intro json plain given
    cases plain with
    | null => contradiction
    | _ => rfl
  list items := by rw [List.map_id]; rfl
  entries _ fields := by simp [Json.format]
  tagged _ _ _ := rfl
  data := by
    intro depth json plain shallow
    exact (if_pos shallow).trans (Json.plainData plain)

theorem entriesCons (keys : List String) (key : String) (value : Data) (rest : List (Data × Data)) :
    Data.format.entries? keys (.mapping ((.text key, value) :: rest)) =
      (Data.format.entries? keys (.mapping rest)).map ((key, value) :: ·) := by
  simp only [Data.format, List.mapM_cons, Data.name?, Option.pure_def, Option.bind_eq_bind,
    Option.bind_some, Option.map_some, Option.bind_assoc, Option.map_bind]
  rfl

theorem dataEntries (keys : List String) (fields : List (String × Json)) :
    Data.format.entries? keys (Json.object fields).asData =
      some (fields.map fun field => (field.1, field.2.asData)) := by
  rw [Json.asData]
  induction fields with
  | nil => rfl
  | cons field rest ih =>
    rw [Json.fieldsAsData, entriesCons, ih]
    rfl

theorem dataSpeaks : Data.format.Speaks Json.asData where
  text _ := rfl
  nat _ := rfl
  absent := rfl
  present := by
    intro json plain given
    cases plain with
    | null => contradiction
    | _ => rfl
  list items := by rw [← Json.itemsAsDataMap]; rfl
  entries := dataEntries
  tagged _ _ _ := rfl
  data _ _ := rfl

end EffectAudit
