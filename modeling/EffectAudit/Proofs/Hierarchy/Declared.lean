import Mathlib.Logic.Relation
import EffectAudit.Program
import EffectAudit.Proofs.CallGraph.Built
import EffectAudit.Proofs.Hierarchy
/-! Which declarations make a hierarchy. The check for cycles follows every kind for one step more than
there are parent entries; that finds a cycle exactly if there is one. Strictness asks that the parents
are known and otherwise changes nothing about the hierarchy. -/
namespace EffectAudit
namespace Hierarchy

variable {h : Hierarchy}

def Acyclic (h : Hierarchy) : Prop :=
  ∀ kind, ¬Relation.TransGen (fun below above => h.parent? below = some above) kind kind

theorem aboveIff {kind x : Kind} :
    Relation.TransGen (fun below above => h.parent? below = some above) kind x ↔
      ∃ steps, h.climb (steps + 1) kind = some x := by
  constructor
  · intro path
    induction path with
    | single step => exact ⟨0, by simpa [climb] using step⟩
    | tail _ step ih =>
      obtain ⟨steps, reached⟩ := ih
      exact ⟨steps + 1, by rw [climb, reached]; exact step⟩
  · intro given
    obtain ⟨steps, reached⟩ := given
    induction steps generalizing x with
    | zero => exact .single (by simpa [climb] using reached)
    | succ steps ih =>
      rw [climb] at reached
      obtain ⟨middle, there, step⟩ := Option.bind_eq_some_iff.mp reached
      exact (ih there).tail step

theorem endsWithinIff {bound : Nat} {kind : Kind} :
    h.endsWithin bound kind = true ↔ h.climb (bound + 1) kind = none := by
  induction bound generalizing kind with
  | zero => simp [endsWithin, climb]
  | succ bound ih =>
    cases above : h.parent? kind with
    | none => simp [endsWithin, above, climbTop above]
    | some parent => simp [endsWithin, above, ih, climbParent above]

theorem cyclicNone : h.cyclic? = none ↔ ∀ kind, h.climb (h.parents.size + 2) kind = none := by
  unfold cyclic?
  rw [List.find?_eq_none]
  constructor
  · intro all kind
    cases above : h.parent? kind with
    | none => exact climbTop above _
    | some parent => simpa [endsWithinIff] using all kind (NameMap.memKeys above)
  · intro all kind _
    simpa [endsWithinIff] using all kind

/- Around a cycle one can climb for ever, and whoever climbs for long enough has met a kind twice. -/
theorem acyclicIff : h.Acyclic ↔ h.cyclic? = none := by
  rw [cyclicNone]
  constructor
  · intro acyclic kind
    cases reached : h.climb (h.parents.size + 2) kind with
    | none => rfl
    | some x =>
      obtain ⟨low, high, lt, le, same⟩ := climbRepeats reached (by omega)
      have more : high = low + (high - low - 1 + 1) := by omega
      obtain ⟨rest, split⟩ := Nat.exists_eq_add_of_lt le
      rw [split, Nat.add_assoc, climbAdd] at reached
      obtain ⟨again, there, _⟩ := Option.bind_eq_some_iff.mp reached
      rw [there] at same
      rw [more, climbAdd, same] at there
      exact absurd (aboveIff.mpr ⟨_, there⟩) (acyclic again)
  · intro ends kind path
    obtain ⟨steps, around⟩ := aboveIff.mp path
    have forever : ∀ rounds, h.climb (rounds * (steps + 1)) kind = some kind := by
      intro rounds
      induction rounds with
      | zero => simp [climb]
      | succ rounds ih =>
        rw [Nat.succ_mul, climbAdd, ih]
        exact around
    have long := forever (h.parents.size + 2)
    have enough : (h.parents.size + 2) * (steps + 1) = h.parents.size + 2 + (h.parents.size + 2) * steps := by
      rw [Nat.mul_succ, Nat.add_comm]
    rw [enough, climbAdd, ends kind] at long
    contradiction

def Permits (h : Hierarchy) (kind : Kind) : Prop :=
  h.options.strictKinds = true → h.contains kind = true

theorem checkKindOk {kind : Kind} {context : String} :
    h.checkKind kind context = .ok () ↔ h.Permits kind := by
  unfold checkKind Permits
  cases h.options.strictKinds <;> cases h.contains kind <;> simp

theorem declareOptions (options : Options) (decls : List KindDecl) :
    (h.withOptions options).declare decls = (h.declare decls).withOptions options := by
  unfold declare
  induction decls generalizing h with
  | nil => rfl
  | cons decl rest ih =>
    rw [List.foldl_cons, List.foldl_cons, ← ih]
    congr 1
    have same : (h.withOptions options).root = h.root := rfl
    rw [same]
    split <;> rfl

theorem extendOk {h' : Hierarchy} {decls : List KindDecl} :
    h.extend decls = .ok h' ↔ h' = h.declare decls ∧ (h.declare decls).Acyclic ∧
      ∀ decl ∈ decls, ∀ parent, decl.parent = some parent → (h.declare decls).Permits parent := by
  have parents : (h.declare decls).checkParents decls = .ok () ↔
      ∀ decl ∈ decls, ∀ parent, decl.parent = some parent → (h.declare decls).Permits parent := by
    unfold checkParents
    rw [forMOk]
    apply forall₂_congr
    intro decl _
    cases decl.parent with
    | none => simp
    | some parent => simp [checkKindOk]
  have acyclic : (h.declare decls).checkAcyclic = .ok () ↔ (h.declare decls).Acyclic := by
    unfold checkAcyclic
    rw [acyclicIff]
    cases (h.declare decls).cyclic? <;> simp
  unfold extend
  constructor
  · intro ok
    obtain ⟨⟨⟩, known, ok⟩ := bindOk.mp ok
    obtain ⟨⟨⟩, ends, last⟩ := bindOk.mp ok
    exact ⟨(Except.ok.inj last).symm, acyclic.mp ends, parents.mp known⟩
  · intro given
    obtain ⟨same, ends, known⟩ := given
    subst same
    exact bindOk.mpr ⟨(), parents.mpr known, bindOk.mpr ⟨(), acyclic.mpr ends, rfl⟩⟩

end Hierarchy

namespace Program

def kindHierarchy (p : Program) (category : Category) : Hierarchy :=
  (Hierarchy.builtin category).declare (p.kindDecls category)

def kindHierarchies (p : Program) (options : Hierarchy.Options) : Hierarchies :=
  ⟨(p.kindHierarchy .raises).withOptions options, (p.kindHierarchy .tags).withOptions options⟩

theorem hierarchiesOk {p : Program} {options : Hierarchy.Options} {h : Hierarchies} :
    p.hierarchies options = .ok h ↔ h = p.kindHierarchies options ∧
      (∀ category, (p.kindHierarchy category).Acyclic) ∧
      ∀ category, ∀ decl ∈ p.kindDecls category, ∀ parent, decl.parent = some parent →
        ((p.kindHierarchies options).get category).Permits parent := by
  unfold hierarchies Hierarchies.ofDecls
  constructor
  · intro ok
    obtain ⟨raises, one, ok⟩ := bindOk.mp ok
    obtain ⟨tags, two, last⟩ := bindOk.mp ok
    obtain ⟨raisesSame, raisesEnds, raisesKnown⟩ := Hierarchy.extendOk.mp one
    obtain ⟨tagsSame, tagsEnds, tagsKnown⟩ := Hierarchy.extendOk.mp two
    rw [Hierarchy.declareOptions] at raisesSame raisesEnds raisesKnown tagsSame tagsEnds tagsKnown
    refine ⟨?_, ?_, ?_⟩
    · rw [← Except.ok.inj last, raisesSame, tagsSame]
      rfl
    · intro category
      cases category with
      | raises => exact raisesEnds
      | tags => exact tagsEnds
    · intro category
      cases category with
      | raises => exact raisesKnown
      | tags => exact tagsKnown
  · intro given
    obtain ⟨same, ends, known⟩ := given
    subst same
    refine bindOk.mpr ⟨_, Hierarchy.extendOk.mpr ⟨rfl, ?_⟩,
      bindOk.mpr ⟨_, Hierarchy.extendOk.mpr ⟨rfl, ?_⟩, ?_⟩⟩
    · rw [Hierarchy.declareOptions]
      exact ⟨ends .raises, known .raises⟩
    · rw [Hierarchy.declareOptions]
      exact ⟨ends .tags, known .tags⟩
    · rw [Hierarchy.declareOptions, Hierarchy.declareOptions]
      rfl

end Program
end EffectAudit
