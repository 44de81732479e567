import EffectAudit.Proofs.EffectSet.Meaning
/-! What a handler leaves of a set. Nothing that can get past the handler is lost, and no set without the
root that admits as much is smaller. Handlers are taken off a union part by part, off a larger set with
a larger result, and in any order. -/
namespace EffectAudit

theorem Coverage.rootEscapes {h : Hierarchy} (top : h.parent? h.root = none) {kinds : List Kind}
    (specific : ofHandler h kinds ≠ all) : (ofHandler h kinds).covers h h.root = false := by
  rw [Bool.eq_false_iff]
  intro covered
  apply specific
  unfold ofHandler
  rw [if_pos]
  rcases coversHandler.mp covered with none | ⟨cover, listed, above⟩
  · simp [none]
  · have root := (Hierarchy.rootCovered top).mp above
    simp only [Bool.or_eq_true, List.any_eq_true]
    exact .inr ⟨cover, listed, by simp [Hierarchy.isRoot, root]⟩

namespace EffectSet

variable {h : Hierarchy} {a b : EffectSet} {c d : Coverage}

theorem withoutAdmits (top : h.parent? h.root = none) {kind : Kind} (admitted : a.admits h kind = true)
    (free : c.covers h kind = false) : (a.without h c).admits h kind = true := by
  obtain ⟨y, held, admits⟩ := admitsHolds.mp admitted
  have lets := Coverage.letsUncovered top admits free
  exact admitsHolds.mpr ⟨y, withoutHolds.mpr ⟨y, held, lets, .inr rfl⟩, admits⟩

theorem withoutRootFree (free : a.RootFree h) : (a.without h c).RootFree h := by
  cases c with
  | all =>
    have nothing : a.without h .all = ∅ := by cases a <;> rfl
    rw [nothing]
    exact NameSet.notMemEmpty h.root
  | kinds list =>
    cases a with
    | unknown => exact trivial
    | known members => exact fun member => free (NameSet.memFilter.mp member).1

/- Once a set without the root admits the root, it is `unknown`. That is the case where `unknown` gets
past the handler, for then the root does. -/
theorem withoutLeast (top : h.parent? h.root = none) (free : b.RootFree h)
    (escapes : c ≠ .all → c.covers h h.root = false)
    (enough : ∀ kind, a.admits h kind = true → c.covers h kind = false → b.admits h kind = true) :
    b.subsumes h (a.without h c) = true := by
  rw [subsumesTakes]
  intro x held
  obtain ⟨y, inside, lets, yields⟩ := withoutHolds.mp held
  cases y with
  | anything =>
    have admitted : a.admits h h.root = true := by
      rw [holdsAnything.mp inside]
      rfl
    rw [rootAdmitted top free (enough h.root admitted (escapes (Coverage.anythingLet.mp lets)))]
    exact unknownTakes x
  | kind kind =>
    rcases yields with impossible | rfl
    · cases impossible
    · exact enough kind (admitsHeld inside) (Coverage.kindLet.mp lets)

theorem withoutUnion : (a.union b).without h c = (a.without h c).union (b.without h c) := by
  apply eqOfHolds
  intro x
  simp only [withoutHolds, unionHolds, or_and_right, exists_or]

theorem withoutMono (top : h.parent? h.root = none) (within : b.subsumes h a = true) :
    (b.without h c).subsumes h (a.without h c) = true := by
  rw [subsumesTakes] at within ⊢
  intro x held
  obtain ⟨y, inside, lets, yields⟩ := withoutHolds.mp held
  cases y with
  | anything =>
    have whole : (b.without h c).Holds .anything :=
      withoutHolds.mpr ⟨.anything, holdsAnything.mpr (within .anything inside), lets, .inl rfl⟩
    rw [holdsAnything.mp whole]
    exact unknownTakes x
  | kind kind =>
    rcases yields with impossible | rfl
    · cases impossible
    · exact withoutAdmits top (within (.kind kind) inside) (Coverage.kindLet.mp lets)

theorem withoutTwiceHolds {x : Item} :
    ((a.without h c).without h d).Holds x ↔
      ∃ y, a.Holds y ∧ (c.Lets h y ∧ d.Lets h y) ∧ y.Yields x := by
  rw [withoutHolds]
  constructor
  · intro given
    obtain ⟨y, between, second, yields⟩ := given
    obtain ⟨z, inside, first, rfl | rfl⟩ := withoutHolds.mp between
    · exact ⟨.anything, inside, ⟨first, Coverage.letsAnything second⟩, .inl rfl⟩
    · exact ⟨z, inside, ⟨first, second⟩, yields⟩
  · intro given
    obtain ⟨y, inside, ⟨first, second⟩, yields⟩ := given
    exact ⟨y, withoutHolds.mpr ⟨y, inside, first, .inr rfl⟩, second, yields⟩

theorem withoutComm : (a.without h c).without h d = (a.without h d).without h c := by
  apply eqOfHolds
  intro x
  simp only [withoutTwiceHolds, and_comm]

theorem handlersSubtractBest (arises : h.Arises) (kinds : List Kind) (free : a.RootFree h) :
    let c := Coverage.ofHandler h kinds
    (a.without h c).RootFree h ∧
      (∀ kind, a.admits h kind = true → c.covers h kind = false →
        (a.without h c).admits h kind = true) ∧
      (∀ b : EffectSet, b.RootFree h →
        (∀ kind, a.admits h kind = true → c.covers h kind = false → b.admits h kind = true) →
          b.subsumes h (a.without h c) = true) ∧
      (c ≠ .all → ∀ b : EffectSet, b.RootFree h →
        (∀ kind, c.covers h kind = false → b.admits h kind = true) → b = .unknown) ∧
      (∀ b : EffectSet, (a.union b).without h c = (a.without h c).union (b.without h c)) ∧
      (∀ b : EffectSet, b.subsumes h a = true →
        (b.without h c).subsumes h (a.without h c) = true) ∧
      ∀ d : Coverage, (a.without h c).without h d = (a.without h d).without h c := by
  have top := Hierarchy.arisesTop arises
  refine ⟨withoutRootFree free, ?_, ?_, ?_, ?_, ?_, ?_⟩
  · intro kind admitted uncovered
    exact withoutAdmits top admitted uncovered
  · intro b proper enough
    exact withoutLeast top proper (Coverage.rootEscapes top) enough
  · intro specific b proper enough
    exact rootAdmitted top proper (enough h.root (Coverage.rootEscapes top specific))
  · intro b
    exact withoutUnion
  · intro b within
    exact withoutMono top within
  · intro d
    exact withoutComm

theorem inputHandlerLeaves :
    (known (.ofList ["CatchableError", "EOFError", "Timeout"])).without (.builtin .raises)
        (.ofHandler (.builtin .raises) ["IOError"]) = known (.ofList ["CatchableError", "Timeout"]) ∧
      (∀ b : EffectSet, b.RootFree (.builtin .raises) →
        (∀ kind, (known (.ofList ["CatchableError", "EOFError", "Timeout"])).admits (.builtin .raises)
            kind = true →
          (Coverage.ofHandler (.builtin .raises) ["IOError"]).covers (.builtin .raises) kind = false →
          b.admits (.builtin .raises) kind = true) →
        b.subsumes (.builtin .raises) (known (.ofList ["CatchableError", "Timeout"])) = true) ∧
      ∀ b : EffectSet, b.RootFree (.builtin .raises) →
        (∀ kind, (Coverage.ofHandler (.builtin .raises) ["IOError"]).covers (.builtin .raises) kind =
          false → b.admits (.builtin .raises) kind = true) → b = .unknown := by
  have left : (known (.ofList ["CatchableError", "EOFError", "Timeout"])).without (.builtin .raises)
      (.ofHandler (.builtin .raises) ["IOError"]) = known (.ofList ["CatchableError", "Timeout"]) := by
    decide +kernel
  have best := handlersSubtractBest (.builtin .raises) ["IOError"]
    (a := known (.ofList ["CatchableError", "EOFError", "Timeout"])) (by decide +kernel)
  refine ⟨left, ?_, best.2.2.2.1 (by decide +kernel)⟩
  intro b proper enough
  rw [← left]
  exact best.2.2.1 b proper enough

end EffectSet
end EffectAudit
