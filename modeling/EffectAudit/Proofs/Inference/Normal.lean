import EffectAudit.Proofs.Admission
import EffectAudit.Proofs.Inference.LeastSolution
/-! Sets in normal form. A known set of a table holds neither the root, which would make it unknown,
nor an untracked kind, so a set that was published is read back as it was. Declared lists are brought
into this form, and unions, handlers and widening keep it. -/
namespace EffectAudit

namespace EffectSet

variable {h : Hierarchy}

def Normal (h : Hierarchy) (s : EffectSet) : Prop :=
  s = .unknown ∨ ∀ kind, s.Holds (.kind kind) → h.isTracked kind = true ∧ kind ≠ h.root

theorem emptyNormal : (∅ : EffectSet).Normal h := .inr fun _ member => (emptyHolds member).elim

theorem unknownNormal : unknown.Normal h := .inl rfl

theorem normalOfHolds {s : EffectSet}
    (members : s ≠ .unknown → ∀ kind, s.Holds (.kind kind) → h.isTracked kind = true ∧ kind ≠ h.root) :
    s.Normal h := by
  by_cases top : s = .unknown
  · exact .inl top
  · exact .inr (members top)

theorem ofKindsNormal (h : Hierarchy) (kinds : List Kind) : (ofKinds h kinds).Normal h := by
  apply normalOfHolds
  intro known kind member
  obtain ⟨listed, there, tracked, root | same⟩ := ofKindsHolds.mp member
  · exact absurd (holdsAnything.mp (ofKindsHolds.mpr ⟨listed, there, tracked, .inl root⟩)) known
  · cases same
    refine ⟨tracked, ?_⟩
    intro root
    exact known (holdsAnything.mp (ofKindsHolds.mpr ⟨kind, there, tracked, .inl root⟩))

theorem unionNormal {a b : EffectSet} (left : a.Normal h) (right : b.Normal h) :
    (a.union b).Normal h := by
  rcases left with rfl | left
  · exact .inl rfl
  · rcases right with rfl | right
    · exact .inl (holdsAnything.mp (unionHolds.mpr (.inr trivial)))
    · refine .inr fun kind member => ?_
      rcases unionHolds.mp member with inside | inside
      · exact left kind inside
      · exact right kind inside

theorem withoutNormal {s : EffectSet} (normal : s.Normal h) (c : Coverage) :
    (s.without h c).Normal h := by
  apply normalOfHolds
  intro known kind member
  obtain ⟨y, inside, lets, rfl | rfl⟩ := withoutHolds.mp member
  · exact absurd (holdsAnything.mp (withoutHolds.mpr ⟨.anything, inside, lets, .inl rfl⟩)) known
  · rcases normal with rfl | members
    · have whole : (unknown.without h c).Holds .anything :=
        withoutHolds.mpr ⟨.anything, trivial, Coverage.letsAnything lets, .inl rfl⟩
      exact absurd (holdsAnything.mp whole) known
    · exact members kind inside

theorem normalizedNormal (s : EffectSet) : (s.normalized h).Normal h := by
  cases s with
  | unknown => exact unknownNormal
  | known kinds => exact ofKindsNormal h kinds.toList

theorem normalizedSame {s : EffectSet} (normal : s.Normal h) : s.normalized h = s := by
  cases s with
  | unknown => rfl
  | known kinds =>
    have members : ∀ kind ∈ kinds, h.isTracked kind = true ∧ kind ≠ h.root := by
      rcases normal with top | members
      · contradiction
      · exact members
    apply eqOfHolds
    intro x
    unfold normalized
    rw [ofKindsHolds]
    constructor
    · rintro ⟨kind, listed, _, root | rfl⟩
      · exact absurd root (members kind listed).2
      · exact listed
    · intro member
      cases x with
      | anything => exact member.elim
      | kind kind => exact ⟨kind, member, (members kind member).1, .inr rfl⟩

end EffectSet

def CategoryEffects.Normal (h : Hierarchy) (e : CategoryEffects) : Prop :=
  e.resolved.Normal h ∧ e.inferred.Normal h

def EffectTable.Normal (h : Hierarchies) (t : EffectTable) : Prop :=
  ∀ id e, t.get? id = some e → ∀ category, (e.get category).Normal (h.get category)

theorem EffectTable.referenceNormal {h : Hierarchies} {t : EffectTable} (normal : t.Normal h)
    (id : RoutineId) (category : Category) :
    (t.referenceSet id category).Normal (h.get category) := by
  unfold EffectTable.referenceSet
  cases found : t.get? id with
  | none => exact EffectSet.unknownNormal
  | some e =>
    dsimp only
    unfold RoutineEffects.referenceSet
    split
    · exact EffectSet.unknownNormal
    · exact (normal id e found category).1

namespace Contribution

variable {h : Hierarchies} {t : EffectTable} {category : Category}

theorem ofEdgeNormal (normal : t.Normal h) (site : Site.Edge) :
    (ofEdge h t category site).Normal (h.get category) := by
  unfold ofEdge
  split
  · exact EffectSet.emptyNormal
  · cases site.target with
    | param name => exact EffectSet.emptyNormal
    | computed => exact EffectSet.unknownNormal
    | routine id => exact EffectTable.referenceNormal normal id category
    | binding name bound origin =>
      unfold ofTarget
      dsimp only
      split
      · exact EffectSet.ofKindsNormal _ _
      · split
        · exact EffectTable.referenceNormal normal _ category
        · exact EffectSet.unknownNormal

theorem ofRaiseNormal (site : Site.Raise) : (ofRaise h site).Normal h.raises := by
  unfold ofRaise
  cases site.raised with
  | kind kind => exact EffectSet.ofKindsNormal _ _
  | again coverage =>
    cases coverage with
    | all => exact EffectSet.unknownNormal
    | kinds list => exact EffectSet.ofKindsNormal _ _

theorem escapingNormal {filter : SiteFilter} {context : Site.Context} {set : EffectSet}
    (normal : set.Normal (h.get category)) :
    (escaping h filter category context set).Normal (h.get category) := by
  cases category with
  | tags => exact normal
  | raises =>
    unfold escaping
    dsimp only
    generalize context.guards.filter filter.applies = guards
    induction guards generalizing set with
    | nil => exact normal
    | cons g rest ih => exact ih (EffectSet.withoutNormal normal g.coverage)

theorem accumulateNormal (normal : t.Normal h) (sites : RoutineSites) (category : Category)
    (filter : SiteFilter) : (accumulate h t sites category filter).Normal (h.get category) := by
  have fold : ∀ (sets : List EffectSet) (start : EffectSet), start.Normal (h.get category) →
      (∀ s ∈ sets, s.Normal (h.get category)) → (sets.foldl .union start).Normal (h.get category) := by
    intro sets
    induction sets with
    | nil =>
      intro start first _
      exact first
    | cons set rest ih =>
      intro start first all
      rw [List.forall_mem_cons] at all
      exact ih _ (EffectSet.unionNormal first all.1) all.2
  apply fold _ _ EffectSet.emptyNormal
  rw [List.forall_mem_append]
  constructor
  · intro s member
    obtain ⟨site, _, rfl⟩ := List.mem_map.mp member
    exact escapingNormal (ofEdgeNormal normal site)
  · intro s member
    cases category with
    | tags => simp [ofRaises] at member
    | raises =>
      obtain ⟨site, _, rfl⟩ := List.mem_map.mp member
      have normal : (ofRaise h site).Normal (h.get .raises) := ofRaiseNormal site
      exact escapingNormal normal

end Contribution

theorem CategoryEffects.withInferredNormal {h : Hierarchy} {e : CategoryEffects} {set : EffectSet}
    (normal : e.Normal h) (new : set.Normal h) : (e.withInferred set).Normal h := by
  refine ⟨?_, new⟩
  unfold CategoryEffects.withInferred
  dsimp only
  split
  · exact normal.1
  · exact new

theorem CategoryEffects.absorbNormal {h : Hierarchy} {e : CategoryEffects} {set : EffectSet}
    (normal : e.Normal h) (new : set.Normal h) : (e.absorb set).Normal h := by
  rcases CategoryEffects.absorbCases e set with ⟨_, same⟩ | grown
  · rwa [same]
  · rw [grown]
    exact withInferredNormal normal (EffectSet.unionNormal normal.2 new)

theorem EffectTable.modifyNormal {h : Hierarchies} {t : EffectTable} (normal : t.Normal h)
    {id : RoutineId} {f : RoutineEffects → RoutineEffects}
    (keeps : ∀ e, (∀ category, (e.get category).Normal (h.get category)) →
      ∀ category, ((f e).get category).Normal (h.get category)) : (t.modify id f).Normal h := by
  intro x e found
  rw [EffectTable.getModify] at found
  split at found
  · obtain ⟨old, there, rfl⟩ := Option.map_eq_some_iff.mp found
    exact keeps old (normal x old there)
  · exact normal x e found

namespace Inference

variable {i : Setting}

theorem seedCategoryNormal (r : Routine) (category : Category) :
    (seedCategory i r category).Normal (i.hierarchies.get category) := by
  have same (set : EffectSet) (normal : set.Normal (i.hierarchies.get category)) :
      (CategoryEffects.ofInferred set).Normal (i.hierarchies.get category) := ⟨normal, normal⟩
  unfold seedCategory
  dsimp only
  split
  · refine ⟨EffectSet.ofKindsNormal _ _, ?_⟩
    dsimp only
    split
    · exact EffectSet.emptyNormal
    · exact EffectSet.ofKindsNormal _ _
  · split
    · exact same _ EffectSet.emptyNormal
    · split
      · exact same _ (EffectSet.normalizedNormal _)
      · exact same _ EffectSet.unknownNormal

theorem seedNormal (built : CallGraph.ofProgram i.program i.hierarchies = .ok i.graph) :
    (seed i).Normal i.hierarchies := by
  intro id e found category
  rw [seedGet (CallGraph.ofProgramOk.mp built).1] at found
  obtain ⟨r, _, rfl⟩ := Option.map_eq_some_iff.mp found
  cases category with
  | raises => exact seedCategoryNormal r .raises
  | tags => exact seedCategoryNormal r .tags

theorem visitNormal {h : Hierarchies} {t : EffectTable} (normal : t.Normal h) (v : Visit) :
    (visit h t v).1.Normal h := by
  rw [visitTable]
  apply EffectTable.modifyNormal normal
  intro e kept category
  rw [absorbedGet]
  exact CategoryEffects.absorbNormal (kept category)
    (Contribution.accumulateNormal normal v.2 category .all)

theorem widenNormal {h : Hierarchies} {t : EffectTable} (normal : t.Normal h) (id : RoutineId) :
    (t.modify id (·.widen)).Normal h := by
  apply EffectTable.modifyNormal normal
  intro e kept category
  cases category with
  | raises => exact CategoryEffects.withInferredNormal (kept .raises) EffectSet.unknownNormal
  | tags => exact CategoryEffects.withInferredNormal (kept .tags) EffectSet.unknownNormal

theorem runNormal (built : CallGraph.ofProgram i.program i.hierarchies = .ok i.graph) :
    (run i).table.Normal i.hierarchies :=
  passesInvariant _ _ (seedSettled built) (fun _ v _ normal => visitNormal normal v)
    (fun _ v _ normal => widenNormal normal v.1) (seedNormal built)

end Inference
end EffectAudit
