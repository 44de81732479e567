import EffectAudit.Proofs.Hierarchy.Arising
import EffectAudit.Proofs.Hierarchy.Declared
/-! What the walks up a hierarchy find. They stop after a number of steps and keep no record of where they
have been; still they meet every kind above the one they start from and no other, on a cycle as well. So
coverage is an order where an extension was accepted, and a preorder below the root in any case. -/
namespace EffectAudit.Hierarchy

variable {h : Hierarchy}

def Reaches (h : Hierarchy) (kind x : Kind) : Prop :=
  Relation.ReflTransGen (fun below above => h.parent? below = some above) kind x

theorem reachesIff {kind x : Kind} : h.Reaches kind x ↔ ∃ steps, h.climb steps kind = some x := by
  unfold Reaches
  rw [Relation.reflTransGen_iff_eq_or_transGen, aboveIff]
  constructor
  · intro given
    rcases given with same | ⟨steps, reached⟩
    · exact ⟨0, by rw [same]; rfl⟩
    · exact ⟨steps + 1, reached⟩
  · intro given
    obtain ⟨steps, reached⟩ := given
    cases steps with
    | zero => exact .inl (by simpa [climb, eq_comm] using reached)
    | succ steps => exact .inr ⟨steps, reached⟩

theorem coveredReaches {kind cover : Kind} :
    h.isCoveredBy kind cover = true ↔ cover = h.root ∨ h.Reaches kind cover := by
  rw [coveredIff, reachesIff]

theorem trackedReaches {kind : Kind} :
    h.isTracked kind = true ↔
      h.options.trackDefects = true ∨ ∀ x, h.Reaches kind x → x ∉ h.untracked := by
  unfold isTracked
  rw [Bool.or_eq_true, List.all_eq_true]
  refine or_congr Iff.rfl (forall_congr' fun x => ?_)
  rw [memLineage, reachesIff, decide_eq_true_iff]

theorem arisesTracked (arises : h.Arises) : h.isTracked h.root = true := by
  have clean : h.root ∉ h.untracked := by
    induction arises with
    | ofRoot category root => exact NameSet.notMemEmpty root
    | builtin category =>
      exact declareRoot (h := ofRoot category (builtinRoot category)) (NameSet.notMemEmpty _)
    | withOptions options before ih => exact ih
    | extended before accepted ih =>
      rw [(extendOk.mp accepted).1]
      exact declareRoot ih
    | refused before rejected ih => exact declareRoot ih
  exact rootTracked (arisesTop arises) clean

theorem coveredAntisymm (top : h.parent? h.root = none) (acyclic : h.Acyclic) {a b : Kind}
    (first : h.isCoveredBy a b = true) (second : h.isCoveredBy b a = true) : a = b := by
  rcases coveredReaches.mp first with root | up
  · rw [root] at second ⊢
    exact (rootCovered top).mp second
  · rcases coveredReaches.mp second with root | back
    · rw [root] at first ⊢
      exact ((rootCovered top).mp first).symm
    · rcases Relation.reflTransGen_iff_eq_or_transGen.mp up with same | path
      · exact same.symm
      · exact absurd (path.trans_left back) (acyclic a)

theorem walksExact (arises : h.Arises) :
    (∀ kind cover, h.isCoveredBy kind cover = true ↔ cover = h.root ∨ h.Reaches kind cover) ∧
      (∀ kind, h.isTracked kind = true ↔
        h.options.trackDefects = true ∨ ∀ x, h.Reaches kind x → x ∉ h.untracked) ∧
      (∀ kind, h.isCoveredBy kind kind = true) ∧
      (∀ a b c, h.isCoveredBy a b = true → h.isCoveredBy b c = true → h.isCoveredBy a c = true) ∧
      (∀ kind, h.isCoveredBy kind h.root = true ∧
        (h.isCoveredBy h.root kind = true → kind = h.root)) ∧
      (h.options.trackDefects = false → ∀ kind cover, h.isTracked cover = false →
        h.isCoveredBy kind cover = true → h.isTracked kind = false) ∧
      ∀ decls h', h.extend decls = .ok h' → ∀ a b,
        h'.isCoveredBy a b = true → h'.isCoveredBy b a = true → a = b := by
  have top := arisesTop arises
  refine ⟨fun _ _ => coveredReaches, fun _ => trackedReaches, coveredSelf,
    fun _ _ _ => coveredTrans top, ?_, ?_, ?_⟩
  · intro kind
    exact ⟨coveredReaches.mpr (.inl rfl), (rootCovered top).mp⟩
  · intro _ kind cover untracked covered
    by_contra tracked
    rw [Bool.not_eq_false] at tracked
    -- The root is tracked, so it is not the cover.
    have proper : cover ≠ h.root := by
      intro root
      rw [root, arisesTracked arises] at untracked
      contradiction
    rw [trackedCover tracked covered proper] at untracked
    contradiction
  · intro decls h' accepted a b
    have acyclic := (extendOk.mp accepted).2.1
    rw [(extendOk.mp accepted).1]
    exact coveredAntisymm (declareTop top) acyclic

def knot : List KindDecl :=
  [{ name := "Tick", parent := some "Tock" }, { name := "Tock", parent := some "Chime", tracked := false },
    { name := "Chime", parent := some "Tick" }, { name := "Echo", parent := some "Chime" }]

theorem knotWalked :
    (Hierarchy.ofRoot .raises "Any").extend knot = .error (.kindCycle "Chime" .raises) ∧
      ((Hierarchy.ofRoot .raises "Any").declare knot).isTracked "Tock" = false ∧
      ((Hierarchy.ofRoot .raises "Any").declare knot).isCoveredBy "Echo" "Tock" = true ∧
      ((Hierarchy.ofRoot .raises "Any").declare knot).isTracked "Echo" = false := by
  have rejected : (Hierarchy.ofRoot .raises "Any").extend knot = .error (.kindCycle "Chime" .raises) := by
    decide +kernel
  have marked : ((Hierarchy.ofRoot .raises "Any").declare knot).isTracked "Tock" = false := by
    decide +kernel
  have covered : ((Hierarchy.ofRoot .raises "Any").declare knot).isCoveredBy "Echo" "Tock" = true := by
    decide +kernel
  have walks := walksExact (.refused (.ofRoot .raises "Any") rejected)
  exact ⟨rejected, marked, covered, walks.2.2.2.2.2.1 rfl "Echo" "Tock" marked covered⟩

end EffectAudit.Hierarchy
