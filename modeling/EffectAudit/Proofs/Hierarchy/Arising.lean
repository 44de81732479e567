import EffectAudit.Proofs.Hierarchy
/-! The hierarchies that can come about, cyclic ones among them. In each of them the root has no parent,
and two kinds that cover a third are one above the other, for there is one way up from a kind. -/
namespace EffectAudit.Hierarchy

/- An extension enters its declarations before it checks them, so they stay where it is refused. -/
inductive Arises : Hierarchy → Prop where
  | ofRoot (category : Category) (root : Kind) : Arises (.ofRoot category root)
  | builtin (category : Category) : Arises (.builtin category)
  | withOptions {h : Hierarchy} (options : Options) (before : Arises h) : Arises (h.withOptions options)
  | extended {h h' : Hierarchy} {decls : List KindDecl} (before : Arises h)
      (accepted : h.extend decls = .ok h') : Arises h'
  | refused {h : Hierarchy} {decls : List KindDecl} {error : Error} (before : Arises h)
      (rejected : h.extend decls = .error error) : Arises (h.declare decls)

variable {h : Hierarchy}

theorem arisesTop (arises : h.Arises) : h.parent? h.root = none := by
  induction arises with
  | ofRoot category root => exact NameMap.getEmpty root
  | builtin category => exact builtinTop category {}
  | withOptions options before ih => exact ih
  | extended before accepted ih => exact extendTop ih accepted
  | refused before rejected ih => exact declareTop ih

theorem rootCovered (top : h.parent? h.root = none) {cover : Kind} :
    h.isCoveredBy h.root cover = true ↔ cover = h.root := by
  rw [coveredIff]
  constructor
  · intro covered
    rcases covered with root | ⟨steps, reached⟩
    · exact root
    · cases steps with
      | zero => simpa [climb, eq_comm] using reached
      | succ steps =>
        rw [climbTop top] at reached
        contradiction
  · exact .inl

theorem coversComparable {kind a b : Kind} (first : h.isCoveredBy kind a = true)
    (second : h.isCoveredBy kind b = true) :
    h.isCoveredBy a b = true ∨ h.isCoveredBy b a = true := by
  rw [coveredIff] at first second
  rw [coveredIff, coveredIff]
  rcases first with rfl | ⟨low, there⟩
  · exact .inr (.inl rfl)
  · rcases second with rfl | ⟨high, further⟩
    · exact .inl (.inl rfl)
    · rcases Nat.le_total low high with le | le
      · obtain ⟨more, rfl⟩ := Nat.exists_eq_add_of_le le
        rw [climbAdd, there] at further
        exact .inl (.inr ⟨more, further⟩)
      · obtain ⟨more, rfl⟩ := Nat.exists_eq_add_of_le le
        rw [climbAdd, further] at there
        exact .inr (.inr ⟨more, there⟩)

end EffectAudit.Hierarchy
