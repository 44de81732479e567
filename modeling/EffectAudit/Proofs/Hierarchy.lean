import Mathlib.Combinatorics.Pigeonhole
import EffectAudit.Coverage
/-! Coverage is reachability by parent steps. The walk up a hierarchy is cut off by a step count; a
path that is longer repeats a kind, so the count loses nothing, cycles or not. Where the root has no
parent, coverage is transitive, and whatever covers a tracked kind is tracked. -/
namespace EffectAudit

theorem NameMap.memKeys {β : Type} {m : NameMap β} {name : String} {value : β}
    (found : m.get? name = some value) : name ∈ m.keys := by
  have inside {entries : List (String × β)} (hit : NameMap.find name entries = some value) :
      name ∈ entries.map (·.1) := by
    induction entries with
    | nil => simp [NameMap.find] at hit
    | cons head rest ih =>
      obtain ⟨key, old⟩ := head
      unfold NameMap.find at hit
      split at hit
      · next same => simp [same]
      · exact List.mem_cons_of_mem _ (ih hit)
  exact inside found

namespace Hierarchy

variable {h : Hierarchy}

def climb (h : Hierarchy) : Nat → Kind → Option Kind
  | 0, kind => some kind
  | steps + 1, kind => (h.climb steps kind).bind h.parent?

theorem climbAdd (a b : Nat) (kind : Kind) :
    h.climb (a + b) kind = (h.climb a kind).bind (h.climb b) := by
  induction b with
  | zero => cases h.climb a kind <;> rfl
  | succ b ih =>
    rw [← Nat.add_assoc, climb, ih]
    cases h.climb a kind with
    | none => rfl
    | some top => rfl

theorem climbParent {kind parent : Kind} (above : h.parent? kind = some parent) (steps : Nat) :
    h.climb (steps + 1) kind = h.climb steps parent := by
  rw [Nat.add_comm, climbAdd]
  simp [climb, above]

theorem climbTop {kind : Kind} (above : h.parent? kind = none) (steps : Nat) :
    h.climb (steps + 1) kind = none := by
  rw [Nat.add_comm, climbAdd]
  simp [climb, above]

theorem memAscend {bound : Nat} {kind x : Kind} :
    x ∈ h.ascend bound kind ↔ ∃ steps ≤ bound, h.climb steps kind = some x := by
  induction bound generalizing kind with
  | zero => simp [ascend, climb, eq_comm]
  | succ bound ih =>
    cases above : h.parent? kind with
    | none =>
      simp only [ascend, above, List.mem_singleton]
      constructor
      · rintro rfl
        exact ⟨0, by omega, rfl⟩
      · rintro ⟨steps, _, reached⟩
        cases steps with
        | zero => simpa [climb, eq_comm] using reached
        | succ steps =>
          rw [climbTop above] at reached
          contradiction
    | some parent =>
      simp only [ascend, above, List.mem_cons, ih]
      constructor
      · rintro (rfl | ⟨steps, le, reached⟩)
        · exact ⟨0, by omega, rfl⟩
        · exact ⟨steps + 1, by omega, by rw [climbParent above]; exact reached⟩
      · rintro ⟨steps, le, reached⟩
        cases steps with
        | zero => exact .inl (by simpa [climb, eq_comm] using reached)
        | succ steps =>
          rw [climbParent above] at reached
          exact .inr ⟨steps, by omega, reached⟩

/- Every kind below the top of a path has a parent entry, so a path with more steps than there are
entries meets one kind twice. -/
theorem climbRepeats {steps : Nat} {kind x : Kind} (reached : h.climb steps kind = some x)
    (long : h.parents.size < steps) :
    ∃ low high, low < high ∧ high < steps ∧ h.climb low kind = h.climb high kind := by
  have entry : ∀ n < steps, ∃ k, h.climb n kind = some k ∧ k ∈ h.parents.keys := by
    intro n lt
    obtain ⟨rest, rfl⟩ := Nat.exists_eq_add_of_lt lt
    rw [Nat.add_assoc, climbAdd] at reached
    obtain ⟨k, there, onward⟩ := Option.bind_eq_some_iff.mp reached
    refine ⟨k, there, ?_⟩
    rw [Nat.add_comm, climbAdd] at onward
    obtain ⟨parent, above, _⟩ := Option.bind_eq_some_iff.mp onward
    exact NameMap.memKeys (by simpa [climb, parent?] using above)
  have small : (h.parents.keys.toFinset.map ⟨some, Option.some_injective _⟩).card <
      (Finset.range steps).card := by
    rw [Finset.card_map, Finset.card_range]
    exact Nat.lt_of_le_of_lt (List.toFinset_card_le _) (by simpa [NameMap.keys, NameMap.size] using long)
  obtain ⟨a, ha, b, hb, different, same⟩ :=
    Finset.exists_ne_map_eq_of_card_lt_of_maps_to (f := fun n => h.climb n kind) small (by
      intro n member
      obtain ⟨k, there, key⟩ := entry n (Finset.mem_range.mp member)
      simpa [there] using key)
  rw [Finset.mem_range] at ha hb
  rcases Nat.lt_or_gt_of_ne different with lt | gt
  · exact ⟨a, b, lt, hb, same⟩
  · exact ⟨b, a, gt, ha, same.symm⟩

theorem climbShorter {steps : Nat} {kind x : Kind} (reached : h.climb steps kind = some x)
    (long : h.parents.size < steps) : ∃ fewer < steps, h.climb fewer kind = some x := by
  obtain ⟨low, high, lt, le, equal⟩ := climbRepeats reached long
  refine ⟨low + (steps - high), by omega, ?_⟩
  rw [climbAdd, equal, ← climbAdd, show high + (steps - high) = steps by omega]
  exact reached

theorem memLineage {kind x : Kind} : x ∈ h.lineage kind ↔ ∃ steps, h.climb steps kind = some x := by
  unfold lineage
  rw [memAscend]
  constructor
  · rintro ⟨steps, _, reached⟩
    exact ⟨steps, reached⟩
  · rintro ⟨steps, reached⟩
    induction steps using Nat.strong_induction_on with
    | _ steps ih =>
      by_cases short : steps ≤ h.parents.size + 1
      · exact ⟨steps, short, reached⟩
      · obtain ⟨fewer, lt, again⟩ := climbShorter reached (by omega)
        exact ih fewer lt again

theorem coveredIff {kind cover : Kind} :
    h.isCoveredBy kind cover = true ↔
      cover = h.root ∨ ∃ steps, h.climb steps kind = some cover := by
  unfold isCoveredBy
  rw [Bool.or_eq_true, List.contains_iff_mem, memLineage]
  simp [isRoot]

theorem coveredSelf (kind : Kind) : h.isCoveredBy kind kind = true :=
  coveredIff.mpr (.inr ⟨0, rfl⟩)

theorem coveredTrans (top : h.parent? h.root = none) {a b c : Kind}
    (first : h.isCoveredBy a b = true) (second : h.isCoveredBy b c = true) :
    h.isCoveredBy a c = true := by
  rw [coveredIff] at first second ⊢
  rcases second with root | ⟨onward, reached⟩
  · exact .inl root
  · rcases first with rfl | ⟨steps, there⟩
    · cases onward with
      | zero => exact .inl (by simpa [climb, eq_comm] using reached)
      | succ onward =>
        rw [climbTop top] at reached
        contradiction
    · exact .inr ⟨steps + onward, by rw [climbAdd, there]; exact reached⟩

theorem trackedCover {kind cover : Kind} (tracked : h.isTracked kind = true)
    (covered : h.isCoveredBy kind cover = true) (proper : cover ≠ h.root) :
    h.isTracked cover = true := by
  unfold isTracked at tracked ⊢
  rw [Bool.or_eq_true, List.all_eq_true] at tracked ⊢
  rcases tracked with all | clean
  · exact .inl all
  · right
    intro x member
    obtain ⟨onward, reached⟩ := memLineage.mp member
    rcases coveredIff.mp covered with root | ⟨steps, there⟩
    · exact absurd root proper
    · exact clean x (memLineage.mpr ⟨steps + onward, by rw [climbAdd, there]; exact reached⟩)

theorem rootTracked (top : h.parent? h.root = none) (clean : h.root ∉ h.untracked) :
    h.isTracked h.root = true := by
  have line : h.lineage h.root = [h.root] := by
    unfold lineage ascend
    rw [top]
  unfold isTracked
  rw [line]
  simp [clean]

theorem declareKeeps {P : Hierarchy → Prop} (step : ∀ h (decl : KindDecl), decl.name ≠ h.root → P h →
    P (h.insert decl)) {h : Hierarchy} (holds : P h) {decls : List KindDecl} : P (h.declare decls) := by
  unfold declare
  induction decls generalizing h with
  | nil => exact holds
  | cons decl rest ih =>
    rw [List.foldl_cons]
    apply ih
    split
    · exact holds
    · next other => exact step h decl other holds

theorem declareTop {decls : List KindDecl} {h : Hierarchy} (top : h.parent? h.root = none) :
    (h.declare decls).parent? (h.declare decls).root = none := by
  refine declareKeeps (P := fun h => h.parent? h.root = none) ?_ top
  intro h decl other top
  unfold insert parent? at *
  dsimp only
  split
  · exact top
  · rw [NameMap.getInsert, if_neg (Ne.symm other)]
    exact top

theorem declareRoot {decls : List KindDecl} {h : Hierarchy} (clean : h.root ∉ h.untracked) :
    (h.declare decls).root ∉ (h.declare decls).untracked := by
  refine declareKeeps (P := fun h => h.root ∉ h.untracked) ?_ clean
  intro h decl other clean
  unfold insert
  dsimp only
  split
  · simp [NameSet.erase, clean]
  · simp [clean, Ne.symm other]

theorem extendTop {h h' : Hierarchy} {decls : List KindDecl} (top : h.parent? h.root = none)
    (ok : h.extend decls = .ok h') : h'.parent? h'.root = none := by
  unfold extend at ok
  cases parents : (h.declare decls).checkParents decls with
  | error e => simp [parents, bind, Except.bind] at ok
  | ok _ =>
    cases acyclic : (h.declare decls).checkAcyclic with
    | error e => simp [parents, acyclic, bind, Except.bind] at ok
    | ok _ =>
      simp only [parents, acyclic, bind, Except.bind, pure, Except.pure, Except.ok.injEq] at ok
      rw [← ok]
      exact declareTop top

theorem builtinTop (category : Category) (options : Options) :
    ((builtin category).withOptions options).parent? ((builtin category).withOptions options).root =
      none := by
  have bare : (ofRoot category (builtinRoot category)).parent? (builtinRoot category) = none :=
    NameMap.getEmpty _
  exact declareTop (h := ofRoot category (builtinRoot category)) bare

end Hierarchy

theorem Hierarchies.raisesTop {options : Hierarchy.Options} {exceptionKinds tagKinds : List KindDecl}
    {h : Hierarchies} (ok : Hierarchies.ofDecls options exceptionKinds tagKinds = .ok h) :
    h.raises.parent? h.raises.root = none := by
  unfold Hierarchies.ofDecls at ok
  cases raises : ((Hierarchy.builtin .raises).withOptions options).extend exceptionKinds with
  | error e => simp [raises, bind, Except.bind] at ok
  | ok first =>
    cases tags : ((Hierarchy.builtin .tags).withOptions options).extend tagKinds with
    | error e => simp [raises, tags, bind, Except.bind] at ok
    | ok second =>
      simp only [raises, tags, bind, Except.bind, pure, Except.pure, Except.ok.injEq] at ok
      rw [← ok]
      exact Hierarchy.extendTop (Hierarchy.builtinTop .raises options) raises

end EffectAudit
