import EffectAudit.Proofs.Hierarchy
import EffectAudit.Proofs.Propagation
/-! The kinds a set stands for. A member admits itself and everything below it, and `unknown` admits
all. A kind that no handler covers is still admitted after the handlers have been taken off, because
a handler that takes off a member covers everything below that member. -/
namespace EffectAudit

def EffectSet.admits (h : Hierarchy) : EffectSet → Kind → Bool
  | .unknown, _ => true
  | .known kinds, kind => EffectSet.covers h kinds kind

def Item.Admits (h : Hierarchy) : Item → Kind → Prop
  | .anything, _ => True
  | .kind cover, below => h.isCoveredBy below cover = true

namespace EffectSet

variable {h : Hierarchy}

theorem admitsHolds {s : EffectSet} {kind : Kind} :
    s.admits h kind = true ↔ ∃ y, s.Holds y ∧ y.Admits h kind := by
  cases s with
  | unknown => exact ⟨fun _ => ⟨.anything, trivial, trivial⟩, fun _ => rfl⟩
  | known kinds =>
    constructor
    · intro covered
      obtain ⟨cover, member, above⟩ := List.any_eq_true.mp covered
      exact ⟨.kind cover, member, above⟩
    · rintro ⟨y, held, admits⟩
      cases y with
      | anything => exact held.elim
      | kind cover => exact List.any_eq_true.mpr ⟨cover, held, admits⟩

theorem admitsLe {s t : EffectSet} (below : s ≤ t) {kind : Kind} (admitted : s.admits h kind = true) :
    t.admits h kind = true := by
  obtain ⟨y, held, admits⟩ := admitsHolds.mp admitted
  exact admitsHolds.mpr ⟨y, leHolds.mp below y held, admits⟩

theorem insertHolds {s : EffectSet} {kind : Kind} {x : Item} :
    (s.insert h kind).Holds x ↔
      s.Holds x ∨ h.isTracked kind = true ∧ (kind = h.root ∨ x = .kind kind) := by
  cases s with
  | unknown => simp [insert]
  | known kinds =>
    unfold insert
    cases tracked : h.isTracked kind with
    | false => simp
    | true =>
      by_cases root : kind = h.root
      · simp [Hierarchy.isRoot, root]
      · cases x with
        | anything => simp [Hierarchy.isRoot, root]
        | kind other => simp [Hierarchy.isRoot, root, or_comm]

theorem ofKindsHolds {kinds : List Kind} {x : Item} :
    (ofKinds h kinds).Holds x ↔
      ∃ kind ∈ kinds, h.isTracked kind = true ∧ (kind = h.root ∨ x = .kind kind) := by
  have fold (s : EffectSet) : (kinds.foldl (insert h) s).Holds x ↔
      s.Holds x ∨ ∃ kind ∈ kinds, h.isTracked kind = true ∧ (kind = h.root ∨ x = .kind kind) := by
    induction kinds generalizing s with
    | nil => simp
    | cons first rest ih =>
      rw [List.foldl_cons, ih, insertHolds]
      simp [or_assoc]
  have nothing : ¬empty.Holds x := emptyHolds
  unfold ofKinds
  rw [fold]
  simp [nothing]

theorem ofKindsAdmits {kinds : List Kind} {cover kind : Kind} (listed : cover ∈ kinds)
    (tracked : h.isTracked cover = true) (covered : h.isCoveredBy kind cover = true) :
    (ofKinds h kinds).admits h kind = true := by
  refine admitsHolds.mpr ⟨.kind cover, ofKindsHolds.mpr ?_, covered⟩
  exact ⟨cover, listed, tracked, .inr rfl⟩

theorem admitsOfNoneUncovered (top : h.parent? h.root = none) {a b : EffectSet}
    (none : (a.uncoveredBy h b).isEmpty = true) {kind : Kind} (admitted : a.admits h kind = true) :
    b.admits h kind = true := by
  cases b with
  | unknown => rfl
  | known b =>
    cases a with
    | unknown => simp [uncoveredBy, isEmpty] at none
    | known a =>
      obtain ⟨cover, member, above⟩ := List.any_eq_true.mp admitted
      have within : covers h b cover = true := by
        simp only [uncoveredBy, isEmpty, NameSet.isEmpty, NameSet.filter, List.isEmpty_iff,
          List.filter_eq_nil_iff] at none
        simpa using none cover member
      obtain ⟨wider, listed, higher⟩ := List.any_eq_true.mp within
      exact List.any_eq_true.mpr ⟨wider, listed, Hierarchy.coveredTrans top above higher⟩

end EffectSet

namespace Coverage

variable {h : Hierarchy}

def Catches (h : Hierarchy) (kinds : List Kind) (kind : Kind) : Prop :=
  kinds = [] ∨ ∃ cover ∈ kinds, h.isCoveredBy kind cover = true

theorem coversHandler {kinds : List Kind} {kind : Kind} :
    (ofHandler h kinds).covers h kind = true ↔ Catches h kinds kind := by
  unfold ofHandler Catches
  cases kinds with
  | nil => simp [covers]
  | cons first rest =>
    simp only [List.isEmpty_cons, Bool.false_or, reduceCtorEq, false_or]
    split
    · next root =>
      obtain ⟨cover, listed, top⟩ := List.any_eq_true.mp root
      simp only [covers, true_iff]
      refine ⟨cover, listed, Hierarchy.coveredIff.mpr (.inl ?_)⟩
      simpa [Hierarchy.isRoot] using top
    · simp [covers]

theorem againAdmits {kinds : List Kind} {kind : Kind} (caught : Catches h kinds kind)
    (tracked : h.isTracked kind = true) :
    ((ofHandler h kinds).toEffectSet h).admits h kind = true := by
  unfold ofHandler
  split
  · rfl
  · next specific =>
    simp only [Bool.or_eq_true, not_or, Bool.not_eq_true, List.any_eq_false] at specific
    rcases caught with empty | ⟨cover, listed, above⟩
    · simp [empty] at specific
    · have proper : cover ≠ h.root := by
        have plain := specific.2 cover listed
        simpa [Hierarchy.isRoot] using plain
      exact EffectSet.ofKindsAdmits listed (Hierarchy.trackedCover tracked above proper) above

theorem letsUncovered (top : h.parent? h.root = none) {c : Coverage} {y : Item} {kind : Kind}
    (admits : y.Admits h kind) (free : c.covers h kind = false) : c.Lets h y := by
  cases c with
  | all => simp [covers] at free
  | kinds list =>
    cases y with
    | anything => exact trivial
    | kind cover =>
      rw [Bool.eq_false_iff] at free
      change (Coverage.kinds list).covers h cover = false
      rw [Bool.eq_false_iff]
      intro taken
      obtain ⟨wider, listed, higher⟩ := List.any_eq_true.mp taken
      apply free
      exact List.any_eq_true.mpr ⟨wider, listed, Hierarchy.coveredTrans top admits higher⟩

end Coverage

end EffectAudit
