import EffectAudit.Inference
import EffectAudit.Proofs.CallGraph.Built
import EffectAudit.Proofs.Propagation
/-! What stays fixed in a table while inference runs: there is one entry for each routine, it carries
the routine's flags, a declared set is what callers see, and a routine without a body keeps its first
entry. The start table has this shape, and a pass visits exactly the routines that have a body. -/
namespace EffectAudit.Inference

structure CategoryShape (i : Setting) (r : Routine) (category : Category) (e : CategoryEffects) :
    Prop where
  declared : e.declared = (r.declared category).isSome
  final : ∀ kinds, r.declared category = some kinds →
    e.resolved = .ofKinds (i.hierarchies.get category) kinds
  settled : r.declared category = none → e.resolved = e.inferred
  bodiless : r.hasBody = false → e = seedCategory i r category

structure EntryShape (i : Setting) (r : Routine) (e : RoutineEffects) : Prop where
  routine : e.routine = r.id
  analyzed : e.analyzed = r.hasBody
  dispatched : e.dispatched = r.kind.isDispatched
  category : ∀ category, CategoryShape i r category (e.get category)

structure Shaped (i : Setting) (t : EffectTable) : Prop where
  entry : ∀ r ∈ i.program.routines, ∃ e, t.get? r.id = some e ∧ EntryShape i r e
  only : ∀ id e, t.get? id = some e → ∃ r ∈ i.program.routines, r.id = id ∧ EntryShape i r e

variable {i : Setting}

theorem categorySettled {r : Routine} {category : Category} {e : CategoryEffects}
    (shape : CategoryShape i r category e) : e.Settled := by
  intro plain
  apply shape.settled
  rw [shape.declared] at plain
  simpa using plain

theorem shapedSettled {t : EffectTable} (shape : Shaped i t) : t.Settled := by
  intro id e found category
  obtain ⟨r, _, _, entry⟩ := shape.only id e found
  exact categorySettled (entry.category category)

theorem unlistedAbsent {t : EffectTable} (shape : Shaped i t) {id : RoutineId}
    (unlisted : ¬∃ r ∈ i.program.routines, r.id = id) : t.get? id = none := by
  cases found : t.get? id with
  | none => rfl
  | some e =>
    obtain ⟨r, listed, name, _⟩ := shape.only id e found
    exact absurd ⟨r, listed, name⟩ unlisted

theorem shapedModify {t : EffectTable} (shape : Shaped i t) {id : RoutineId}
    {f : RoutineEffects → RoutineEffects}
    (keeps : ∀ r ∈ i.program.routines, r.id = id → ∀ e, EntryShape i r e → EntryShape i r (f e)) :
    Shaped i (t.modify id f) := by
  constructor
  · intro r member
    obtain ⟨e, found, entry⟩ := shape.entry r member
    rw [EffectTable.getModify]
    split
    · next same => exact ⟨f e, by rw [found]; rfl, keeps r member same e entry⟩
    · exact ⟨e, found, entry⟩
  · intro x e found
    rw [EffectTable.getModify] at found
    split at found
    · next same =>
      obtain ⟨old, there, rfl⟩ := Option.map_eq_some_iff.mp found
      obtain ⟨r, member, name, entry⟩ := shape.only x old there
      exact ⟨r, member, name, keeps r member (name.trans same) old entry⟩
    · exact shape.only x e found

theorem withInferredShape {r : Routine} {category : Category} {e : CategoryEffects}
    (shape : CategoryShape i r category e) (body : r.hasBody = true) (set : EffectSet) :
    CategoryShape i r category (e.withInferred set) where
  declared := shape.declared
  final kinds listed := by
    have declared : e.declared = true := by rw [shape.declared, listed]; rfl
    simpa [CategoryEffects.withInferred, declared] using shape.final kinds listed
  settled free := by
    have plain : e.declared = false := by rw [shape.declared, free]; rfl
    simp [CategoryEffects.withInferred, plain]
  bodiless absent := by rw [body] at absent; contradiction

theorem absorbShape {r : Routine} {category : Category} {e : CategoryEffects}
    (shape : CategoryShape i r category e) (body : r.hasBody = true) (computed : EffectSet) :
    CategoryShape i r category (e.absorb computed) := by
  rcases CategoryEffects.absorbCases e computed with ⟨_, same⟩ | grown
  · rwa [same]
  · rw [grown]
    exact withInferredShape shape body _

theorem seedFold {routines : List Routine} (distinct : (routines.map (·.id)).Nodup)
    (t : EffectTable) (id : RoutineId) :
    (routines.foldl (fun t r => t.insert (seedRoutine i r)) t).get? id =
      ((routines.find? (·.id == id)).map (seedRoutine i)).or (t.get? id) := by
  induction routines generalizing t with
  | nil => simp
  | cons first rest ih =>
    rw [List.map_cons, List.nodup_cons] at distinct
    rw [List.foldl_cons, ih distinct.2]
    have inserted : (t.insert (seedRoutine i first)).get? id =
        if id = first.id then some (seedRoutine i first) else t.get? id := NameMap.getInsert
    rw [inserted]
    by_cases same : id = first.id
    · have absent : rest.find? (·.id == id) = none := by
        rw [List.find?_eq_none]
        intro r member
        have other : r.id ≠ first.id := fun equal =>
          distinct.1 (equal ▸ List.mem_map_of_mem (f := (·.id)) member)
        simpa [same] using other
      rw [absent, if_pos same, List.find?_cons]
      simp [same]
    · have skip : (first.id == id) = false := by simpa using fun equal => same equal.symm
      rw [List.find?_cons, skip, if_neg same]

theorem seedGet (distinct : (i.program.routines.map (·.id)).Nodup) (id : RoutineId) :
    (seed i).get? id = (i.program.routine? id).map (seedRoutine i) := by
  have fold := seedFold (i := i) distinct .empty id
  have nothing : EffectTable.empty.get? id = none := rfl
  rw [nothing, Option.or_none] at fold
  exact fold

theorem routineFound {program : Program} (distinct : (program.routines.map (·.id)).Nodup)
    {id : RoutineId} {r : Routine} :
    program.routine? id = some r ↔ r ∈ program.routines ∧ r.id = id :=
  foundByKey distinct

theorem seedCategoryShape (i : Setting) (r : Routine) (category : Category) :
    CategoryShape i r category (seedCategory i r category) := by
  unfold seedCategory
  cases listed : r.declared category with
  | some kinds =>
    refine ⟨by simp [CategoryEffects.ofDeclared, listed], ?_, by simp [listed], ?_⟩
    · intro kinds' same
      cases listed.symm.trans same
      rfl
    · intro _
      simp [seedCategory, listed]
  | none =>
    have plain (set : EffectSet) (first : r.hasBody = false → .ofInferred set = seedCategory i r category) :
        CategoryShape i r category (.ofInferred set) := by
      refine ⟨by simp [CategoryEffects.ofInferred, listed], by simp [listed], ?_, first⟩
      intro _
      rfl
    cases body : r.hasBody with
    | true => exact plain ∅ (by simp [body])
    | false =>
      cases published : publishedSet? i r category with
      | some set => exact plain _ (by simp [seedCategory, listed, body, published])
      | none => exact plain _ (by simp [seedCategory, listed, body, published])

theorem seedEntryShape (i : Setting) (r : Routine) : EntryShape i r (seedRoutine i r) := by
  refine ⟨rfl, rfl, rfl, ?_⟩
  intro category
  cases category with
  | raises => exact seedCategoryShape i r .raises
  | tags => exact seedCategoryShape i r .tags

theorem seedShaped (distinct : (i.program.routines.map (·.id)).Nodup) : Shaped i (seed i) := by
  constructor
  · intro r member
    refine ⟨seedRoutine i r, ?_, seedEntryShape i r⟩
    rw [seedGet distinct, (routineFound distinct).mpr ⟨member, rfl⟩]
    rfl
  · intro id e found
    rw [seedGet distinct] at found
    obtain ⟨r, there, rfl⟩ := Option.map_eq_some_iff.mp found
    obtain ⟨member, name⟩ := (routineFound distinct).mp there
    exact ⟨r, member, name, seedEntryShape i r⟩

theorem seedBodyInferred {r : Routine} (body : r.hasBody = true) (category : Category) :
    (seedCategory i r category).inferred = ∅ := by
  unfold seedCategory
  cases r.declared category with
  | some kinds => simp [body]
  | none =>
    simp only [body, if_true]
    rfl

def runVisits (i : Setting) : List Visit := visits i (visitOrder i (seed i))

theorem ordered (i : Setting) {id : RoutineId} (member : id ∈ i.graph.declarationOrder) :
    id ∈ (match i.config.visitOrder with
      | .declaration => i.graph.declarationOrder
      | .calleesFirst => i.graph.calleesFirstOrder) := by
  cases i.config.visitOrder with
  | declaration => exact member
  | calleesFirst => exact CallGraph.everyRoutineOrdered i.graph member

theorem visited (built : CallGraph.ofProgram i.program i.hierarchies = .ok i.graph) {v : Visit} :
    v ∈ runVisits i ↔
      ∃ r ∈ i.program.routines, r.id = v.1 ∧ r.hasBody = true ∧ i.graph.sites? v.1 = some v.2 := by
  have shape := seedShaped (i := i) (CallGraph.ofProgramOk.mp built).1
  constructor
  · intro member
    obtain ⟨id, inOrder, pair⟩ := List.mem_filterMap.mp member
    obtain ⟨sites, found, rfl⟩ := Option.map_eq_some_iff.mp pair
    have analyzed := (List.mem_filter.mp inOrder).2
    obtain ⟨e, entry, flag⟩ := (Option.any_eq_true _ _).mp analyzed
    obtain ⟨r, listed, name, known⟩ := shape.only id e entry
    exact ⟨r, listed, name, known.analyzed ▸ flag, found⟩
  · rintro ⟨r, listed, name, body, found⟩
    obtain ⟨e, entry, known⟩ := shape.entry r listed
    refine List.mem_filterMap.mpr ⟨v.1, List.mem_filter.mpr ⟨?_, ?_⟩, ?_⟩
    · apply ordered i
      rw [CallGraph.builtNames built, ← name]
      exact List.mem_map_of_mem listed
    · rw [← name, entry]
      simpa [known.analyzed] using body
    · rw [found]
      rfl

end EffectAudit.Inference
