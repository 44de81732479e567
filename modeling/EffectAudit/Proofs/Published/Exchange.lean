import EffectAudit.Published.Codec
import EffectAudit.Proofs.Program.RoundTrip
import EffectAudit.Proofs.Published
/-! Published effects on their way from one unit to another. The file that a unit writes is read back as
what was written, whatever names occur in it; only a file of another version is refused, and the refusal
names its unit. So a table can be consulted through the file as it can be consulted itself. -/
namespace EffectAudit

theorem NameSet.ofListSelf (s : NameSet) : NameSet.ofList s.toList = s := by
  ext name
  rw [NameSet.memOfList, NameSet.memIff]

namespace EffectSet

theorem toJsonPlain (set : EffectSet) : set.toJson.Plain := by
  cases set with
  | unknown => exact .string _
  | known kinds => simp [toJson, Json.tagged]

theorem toJsonRead (set : EffectSet) : ofJson? set.toJson = some set := by
  cases set with
  | unknown => rfl
  | known kinds =>
    have chosen : Json.format.choice? ["unknown", "known"] (known kinds).toJson =
        some ("known", some (.strings kinds.toList)) := rfl
    have listed : Json.format.texts (.strings kinds.toList) = some kinds.toList :=
      textsRead jsonSpeaks kinds.toList
    simp [ofJson?, Json.listChoice?, chosen, listed, NameSet.ofListSelf]

end EffectSet

namespace NameMap

variable {β : Type} {encode : β → Json}

theorem ofListSelf (m : NameMap β) : ofList m.entries = m := by
  apply NameMap.ext
  intro name
  have fold := foldInsertGet m.sorted id empty name
  rw [Option.map_id, show (empty : NameMap β).get? name = none from rfl, Option.or_none] at fold
  exact fold

theorem toJsonPlain (plain : ∀ b, (encode b).Plain) (m : NameMap β) : (m.toJson encode).Plain := by
  refine .object fun field member => ?_
  obtain ⟨entry, _, rfl⟩ := List.mem_map.mp member
  exact plain entry.2

theorem toJsonRead {read : Json → Option β} (each : ∀ b, read (encode b) = some b) (m : NameMap β) :
    ofJson? read (m.toJson encode) = some m := by
  unfold toJson ofJson?
  refine Option.bind_eq_some_iff.mpr ⟨m.entries, ?_, congrArg some (ofListSelf m)⟩
  apply mapMSome
  rw [List.forall₂_map_left_iff, List.forall₂_same]
  intro entry _
  simp [each]

end NameMap

namespace PublishedEntry

theorem toJsonPlain (e : PublishedEntry) : e.toJson.Plain := by
  simp [toJson, EffectSet.toJsonPlain]

theorem toJsonRead (e : PublishedEntry) : ofJson? e.toJson = some e := by
  simp [ofJson?, toJson, Decode.jsonRecordRead, List.lookup_cons, Field.required, EffectSet.toJsonRead]

end PublishedEntry

namespace PublishedEffects

theorem toJsonPlain (p : PublishedEffects) : p.toJson.Plain := by
  simp [toJson, NameMap.toJsonPlain PublishedEntry.toJsonPlain]

theorem toJsonRead (p : PublishedEffects) : ofJson? p.toJson = some p := by
  have version : Json.format.uint32? (.nat p.version.toNat) = some p.version :=
    uint32Read jsonSpeaks p.version
  have named : Json.format.text? (.string p.unit) = some p.unit := rfl
  have routines := NameMap.toJsonRead PublishedEntry.toJsonRead p.routines
  simp [ofJson?, toJson, Decode.jsonRecordRead, List.lookup_cons, Field.required, version, named, routines]

theorem ofTableVersion (unit : String) (table : EffectTable) :
    (ofTable unit table).version = currentVersion := by
  have kept (effects : List RoutineEffects) (p : PublishedEffects) :
      (effects.foldl (fun p e => p.insert e.routine (entryOf e)) p).version = p.version := by
    induction effects generalizing p with
    | nil => rfl
    | cons e rest ih => exact ih _
  exact kept table.toList (new unit)

theorem readText {p : PublishedEffects} {text : String} (parsed : Json.parse? text = some p.toJson) :
    read text = p.checkVersion := by
  rw [read, parsed, ofDocument, Option.bind_some, toJsonRead]

theorem readBack (p : PublishedEffects) : read p.text = p.checkVersion :=
  readText (Json.parsePretty p.toJsonPlain)

end PublishedEffects

namespace EffectTable

def ofEffects (effects : List RoutineEffects) : EffectTable := effects.foldl insert empty

theorem ofEffectsNamed (effects : List RoutineEffects) {id : RoutineId} {e : RoutineEffects}
    (found : (ofEffects effects).get? id = some e) : e.routine = id := by
  have inserted (effects : List RoutineEffects) (t : EffectTable)
      (named : ∀ id e, t.get? id = some e → e.routine = id) :
      ∀ id e, (effects.foldl insert t).get? id = some e → e.routine = id := by
    induction effects generalizing t with
    | nil => exact named
    | cons first rest ih =>
      apply ih
      intro id e found
      rw [insert, get?, NameMap.getInsert] at found
      split at found
      · next same =>
        cases found
        exact same.symm
      · exact named id e found
  exact inserted effects empty (by simp [empty, get?]) id e found

end EffectTable

theorem publishedEffectsTravel :
    (∀ p : PublishedEffects, PublishedEffects.read p.text =
        if p.version = 1 then .ok p else .error (.publishedVersion p.unit p.version.toNat 1)) ∧
      (∀ (p : PublishedEffects) (text : String), Json.parse? text = some p.toJson →
        PublishedEffects.read text = PublishedEffects.read p.text) ∧
      ∀ (unit : String) (effects : List RoutineEffects), ∃ p,
        PublishedEffects.read (PublishedEffects.ofTable unit (.ofEffects effects)).text = .ok p ∧
          ∀ id category, (Registry.empty.push p).lookup? id category =
            ((EffectTable.ofEffects effects).get? id).map fun e => (e.get category).resolved := by
  refine ⟨PublishedEffects.readBack, ?_, ?_⟩
  · intro p text parsed
    rw [PublishedEffects.readText parsed, PublishedEffects.readBack]
  · intro unit effects
    refine ⟨.ofTable unit (.ofEffects effects), ?_, ?_⟩
    · have current : (PublishedEffects.ofTable unit (.ofEffects effects)).version =
          PublishedEffects.currentVersion := PublishedEffects.ofTableVersion unit _
      rw [PublishedEffects.readBack, PublishedEffects.checkVersion, if_pos current]
    · intro id category
      exact Registry.lookupTable (fun _ _ => EffectTable.ofEffectsNamed effects) unit id category

end EffectAudit
