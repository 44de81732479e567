import EffectAudit.Assignability
import EffectAudit.Proofs.EffectSet.Meaning
/-! Whether a procedure value may be put where a procedure type is expected. It may if the type's sets
subsume the value's and nothing forbidden is among its tags; where it may not, the violations list what
is not admitted or what is forbidden. Putting it somewhere wider still needs no second look at the
value. -/
namespace EffectAudit

namespace EffectSet

variable {h : Hierarchy} {a b : EffectSet}

theorem isEmptyListed : a.isEmpty = true ↔ a.toKindList h = [] := by
  cases a with
  | unknown => simp [isEmpty, toKindList]
  | known kinds => exact List.isEmpty_iff

theorem uncoveredListed (top : h.parent? h.root = none) (free : b.RootFree h) :
    (a.uncoveredBy h b).toKindList h = (a.toKindList h).filter fun kind => !b.admits h kind := by
  cases b with
  | unknown =>
    have refused : (fun kind => !unknown.admits h kind) = fun _ => false := rfl
    rw [refused, List.filter_false]
    rfl
  | known wide =>
    cases a with
    | unknown =>
      have refused : (known wide).admits h h.root = false := by
        rw [Bool.eq_false_iff]
        intro admitted
        cases rootAdmitted top free admitted
      simp [uncoveredBy, toKindList, refused]
    | known members => rfl

theorem coveredListed {listed : List Kind} :
    (a.coveredByAny h listed).toKindList h =
      (a.kinds?.getD []).filter fun kind => listed.any (h.isCoveredBy kind) := by
  cases a <;> rfl

end EffectSet

namespace Assignability

variable {h : Hierarchies} {table : EffectTable} {source : BoundValue} {target : ProcType}

def uncovered (h : Hierarchies) (table : EffectTable) (source : BoundValue) (target : ProcType)
    (category : Category) : List Kind :=
  ((sourceSet h table source category).toKindList (h.get category)).filter fun kind =>
    !(bound h target category).admits (h.get category) kind

def forbidden (h : Hierarchies) (table : EffectTable) (source : BoundValue) (target : ProcType) :
    List Kind :=
  ((sourceSet h table source .tags).kinds?.getD []).filter fun kind =>
    target.effects.forbids.any (h.tags.isCoveredBy kind)

theorem boundRootFree (type : ProcType) (category : Category) :
    (bound h type category).RootFree (h.get category) := by
  unfold bound
  cases type.effects.declared category with
  | none => exact trivial
  | some kinds => exact EffectSet.ofKindsRootFree kinds

theorem assignableIff :
    isAssignable h table source target = true ↔
      (∀ category, (bound h target category).subsumes (h.get category)
        (sourceSet h table source category) = true) ∧ forbidden h table source target = [] := by
  unfold isAssignable missingKinds forbiddenKinds
  rw [Bool.and_eq_true, List.all_eq_true, EffectSet.isEmptyListed (h := h.tags), EffectSet.coveredListed]
  refine and_congr ⟨?_, ?_⟩ Iff.rfl
  · intro all category
    exact EffectSet.uncoveredEmpty.mp (all category (Category.memAll category))
  · intro all category _
    exact EffectSet.uncoveredEmpty.mpr (all category)

theorem forbiddenNone :
    forbidden h table source target = [] ↔
      ∀ kind ∈ (sourceSet h table source .tags).kinds?.getD [], ∀ tag ∈ target.effects.forbids,
        h.tags.isCoveredBy kind tag = false := by
  unfold forbidden
  simp only [List.filter_eq_nil_iff, Bool.not_eq_true, List.any_eq_false]

theorem memBindingViolation {routine : RoutineId} {site : Site.Binding} {category : Category}
    {set : EffectSet} {violation : Violation} :
    violation ∈ bindingViolation h routine site category set ↔
      set.toKindList (h.get category) ≠ [] ∧
        violation = .incompatibleBinding routine site.target site.value category
          (set.toKindList (h.get category)) site.span := by
  unfold bindingViolation
  cases empty : set.isEmpty with
  | true => simp [EffectSet.isEmptyListed.mp empty]
  | false =>
    have present : set.toKindList (h.get category) ≠ [] := by
      rw [← Bool.not_eq_true, EffectSet.isEmptyListed (h := h.get category)] at empty
      exact empty
    simp [present]

section Top

variable (top : ∀ category, (h.get category).parent? (h.get category).root = none)
include top

theorem missingListed (category : Category) :
    (missingKinds h table source target category).toKindList (h.get category) =
      uncovered h table source target category :=
  EffectSet.uncoveredListed (top category) (boundRootFree target category)

theorem memCheckBinding {routine : RoutineId} {site : Site.Binding} {violation : Violation} :
    violation ∈ checkBinding h table routine site ↔
      ∃ category kinds, kinds ≠ [] ∧
        (kinds = uncovered h table site.value site.expected category ∨
          category = .tags ∧ kinds = forbidden h table site.value site.expected) ∧
        violation = .incompatibleBinding routine site.target site.value category kinds site.span := by
  have listed : (forbiddenKinds h table site.value site.expected).toKindList (h.get .tags) =
      forbidden h table site.value site.expected := EffectSet.coveredListed (h := h.tags)
  unfold checkBinding
  rw [List.mem_append, List.mem_flatMap]
  constructor
  · intro reported
    rcases reported with ⟨category, _, inside⟩ | inside
    · obtain ⟨present, same⟩ := memBindingViolation.mp inside
      rw [missingListed top] at present same
      exact ⟨category, _, present, .inl rfl, same⟩
    · obtain ⟨present, same⟩ := memBindingViolation.mp inside
      exact ⟨.tags, _, present, .inr ⟨rfl, listed⟩, same⟩
  · intro given
    obtain ⟨category, kinds, present, which, same⟩ := given
    rcases which with missing | ⟨tags, leaked⟩
    · refine .inl ⟨category, Category.memAll category, memBindingViolation.mpr ?_⟩
      rw [missingListed top, ← missing]
      exact ⟨present, same⟩
    · subst tags
      refine .inr (memBindingViolation.mpr ?_)
      rw [listed, ← leaked]
      exact ⟨present, same⟩

theorem uncoveredNone (category : Category) :
    uncovered h table source target category = [] ↔
      (bound h target category).subsumes (h.get category) (sourceSet h table source category) = true := by
  rw [← missingListed top, ← EffectSet.isEmptyListed]
  exact EffectSet.uncoveredEmpty

theorem checkBindingNone {routine : RoutineId} {site : Site.Binding} :
    checkBinding h table routine site = [] ↔
      isAssignable h table site.value site.expected = true := by
  rw [assignableIff, List.eq_nil_iff_forall_not_mem]
  simp only [memCheckBinding top, ← uncoveredNone top]
  constructor
  · intro none
    refine ⟨?_, ?_⟩
    · intro category
      by_contra present
      exact none _ ⟨category, _, present, .inl rfl, rfl⟩
    · by_contra present
      exact none _ ⟨.tags, _, present, .inr ⟨rfl, rfl⟩, rfl⟩
  · intro given violation reported
    obtain ⟨all, free⟩ := given
    obtain ⟨category, kinds, present, which, _⟩ := reported
    rcases which with missing | ⟨_, leaked⟩
    · exact present (missing.trans (all category))
    · exact present (leaked.trans free)

/- Forbidden tags do not carry over: of a type with unknown tags none is known to be forbidden, whatever
its values do. -/
theorem assignableTrans {wider : ProcType} {name : String}
    (first : isAssignable h table source target = true)
    (second : isAssignable h table (.proc name target) wider = true)
    (free : wider.effects.forbids = []) : isAssignable h table source wider = true := by
  rw [assignableIff] at first second ⊢
  refine ⟨?_, ?_⟩
  · intro category
    exact EffectSet.subsumesTrans (top category) (first.1 category) (second.1 category)
  · simp [forbiddenNone, free]

end Top

theorem assignabilityIsSubsumption (raises : h.raises.Arises) (tags : h.tags.Arises)
    (table : EffectTable) (source : BoundValue) (target wider : ProcType) :
    (isAssignable h table source target = true ↔
      (∀ category, (bound h target category).subsumes (h.get category)
        (sourceSet h table source category) = true) ∧
      ∀ kind ∈ (sourceSet h table source .tags).kinds?.getD [], ∀ tag ∈ target.effects.forbids,
        h.tags.isCoveredBy kind tag = false) ∧
    (∀ (routine : RoutineId) (site : Site.Binding), site.value = source → site.expected = target →
      (checkBinding h table routine site = [] ↔ isAssignable h table source target = true) ∧
      ∀ violation, violation ∈ checkBinding h table routine site ↔
        ∃ category kinds, kinds ≠ [] ∧
          (kinds = uncovered h table source target category ∨
            category = .tags ∧ kinds = forbidden h table source target) ∧
          violation = .incompatibleBinding routine site.target source category kinds site.span) ∧
    ∀ name, isAssignable h table source target = true →
      isAssignable h table (.proc name target) wider = true → wider.effects.forbids = [] →
        isAssignable h table source wider = true := by
  have top (category : Category) : (h.get category).parent? (h.get category).root = none := by
    cases category with
    | raises => exact Hierarchy.arisesTop raises
    | tags => exact Hierarchy.arisesTop tags
  refine ⟨?_, ?_, ?_⟩
  · rw [assignableIff, forbiddenNone]
  · intro routine site value expected
    rw [← value, ← expected]
    exact ⟨checkBindingNone top, fun violation => memCheckBinding top⟩
  · intro name first second free
    exact assignableTrans top first second free

def reading : EffectTable :=
  EffectTable.empty.insert
    { routine := "load"
      raises := .ofInferred (.known (.ofList ["EOFError", "Timeout"]))
      tags := .ofInferred (.known (.ofList ["ReadIOEffect"]))
      analyzed := true }

def inputErrors : ProcType := ⟨{ raises := some ["IOError"], forbids := ["IOEffect"] }⟩

def inputOrTimeout : ProcType := ⟨{ raises := some ["IOError", "Timeout"], forbids := ["TimeEffect"] }⟩

def catchableOrTimeout : ProcType := ⟨{ raises := some ["CatchableError", "Timeout"] }⟩

def narrowSite : Site.Binding := ⟨0, .local "step", inputErrors, .routine "load", .zero⟩

theorem readingBound :
    checkBinding .builtin reading "main" narrowSite =
      [.incompatibleBinding "main" (.local "step") (.routine "load") .raises ["Timeout"] .zero,
        .incompatibleBinding "main" (.local "step") (.routine "load") .tags ["ReadIOEffect"] .zero] ∧
    ¬isAssignable .builtin reading (.routine "load") inputErrors = true ∧
    isAssignable .builtin reading (.routine "load") catchableOrTimeout = true := by
  have narrow := assignabilityIsSubsumption (h := .builtin) (.builtin .raises) (.builtin .tags) reading
    (.routine "load") inputErrors catchableOrTimeout
  have wide := assignabilityIsSubsumption (h := .builtin) (.builtin .raises) (.builtin .tags) reading
    (.routine "load") inputOrTimeout catchableOrTimeout
  have found : checkBinding .builtin reading "main" narrowSite ≠ [] := by decide +kernel
  refine ⟨by decide +kernel, ?_, wide.2.2 "step" (by decide +kernel) (by decide +kernel) rfl⟩
  intro assignable
  exact found ((narrow.2.1 "main" narrowSite rfl rfl).1.mpr assignable)

end Assignability
end EffectAudit
