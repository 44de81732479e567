import EffectAudit.Proofs.Admission
import EffectAudit.Proofs.Hierarchy.Arising
/-! Sets as the kinds they admit. To subsume a set is to admit every kind that it admits, the union
admits what one of its parts admits, and what is uncovered is what is not admitted. Of `unknown` the
root is the part that no other set admits, as long as the root is not a member. -/
namespace EffectAudit.EffectSet

variable {h : Hierarchy} {a b c : EffectSet}

def RootFree (h : Hierarchy) : EffectSet → Prop
  | unknown => True
  | known kinds => h.root ∉ kinds

instance (s : EffectSet) : Decidable (s.RootFree h) :=
  match s with
  | unknown => .isTrue trivial
  | known kinds => inferInstanceAs (Decidable (h.root ∉ kinds))

def Takes (h : Hierarchy) (s : EffectSet) : Item → Prop
  | .anything => s = unknown
  | .kind kind => s.admits h kind = true

theorem unknownTakes (x : Item) : unknown.Takes h x := by
  cases x <;> rfl

theorem admitsHeld {kind : Kind} (held : a.Holds (.kind kind)) : a.admits h kind = true :=
  admitsHolds.mpr ⟨.kind kind, held, Hierarchy.coveredSelf kind⟩

theorem takesAdmits (top : h.parent? h.root = none) {y : Item} {kind : Kind} (takes : a.Takes h y)
    (admits : y.Admits h kind) : a.admits h kind = true := by
  cases y with
  | anything =>
    cases takes
    rfl
  | kind cover =>
    obtain ⟨z, held, above⟩ := admitsHolds.mp takes
    refine admitsHolds.mpr ⟨z, held, ?_⟩
    cases z with
    | anything => exact trivial
    | kind wider => exact Hierarchy.coveredTrans top admits above

theorem rootAdmitted (top : h.parent? h.root = none) (free : a.RootFree h)
    (admitted : a.admits h h.root = true) : a = unknown := by
  cases a with
  | unknown => rfl
  | known kinds =>
    obtain ⟨cover, member, above⟩ := List.any_eq_true.mp admitted
    rw [Hierarchy.rootCovered top] at above
    exact absurd (above ▸ member) free

theorem subsumesTakes : b.subsumes h a = true ↔ ∀ x, a.Holds x → b.Takes h x := by
  cases b with
  | unknown => exact ⟨fun _ x _ => unknownTakes x, fun _ => rfl⟩
  | known wide =>
    cases a with
    | unknown =>
      constructor
      · intro absurdity
        cases absurdity
      · intro all
        cases all .anything trivial
    | known members =>
      constructor
      · intro within x held
        cases x with
        | anything => exact held.elim
        | kind kind => exact List.all_eq_true.mp within kind held
      · intro all
        exact List.all_eq_true.mpr fun kind member => all (.kind kind) member

theorem subsumesAdmits (top : h.parent? h.root = none) (free : b.RootFree h) :
    b.subsumes h a = true ↔ ∀ kind, a.admits h kind = true → b.admits h kind = true := by
  rw [subsumesTakes]
  constructor
  · intro within kind admitted
    obtain ⟨y, held, admits⟩ := admitsHolds.mp admitted
    exact takesAdmits top (within y held) admits
  · intro all x held
    cases x with
    | anything =>
      refine rootAdmitted top free (all h.root ?_)
      rw [holdsAnything.mp held]
      rfl
    | kind kind => exact all kind (admitsHeld held)

theorem subsumesTrans (top : h.parent? h.root = none) (first : b.subsumes h a = true)
    (second : c.subsumes h b = true) : c.subsumes h a = true := by
  rw [subsumesTakes] at first second ⊢
  intro x held
  have taken := first x held
  cases x with
  | anything => exact second .anything (holdsAnything.mpr taken)
  | kind kind =>
    obtain ⟨y, between, admits⟩ := admitsHolds.mp taken
    exact takesAdmits top (second y between) admits

theorem ofKindsRootFree (kinds : List Kind) : (ofKinds h kinds).RootFree h := by
  cases set : ofKinds h kinds with
  | unknown => exact trivial
  | known members =>
    intro member
    have held : (ofKinds h kinds).Holds (.kind h.root) := by
      rw [set]
      exact member
    obtain ⟨kind, listed, tracked, root⟩ := ofKindsHolds.mp held
    have top : kind = h.root := by
      rcases root with top | same
      · exact top
      · exact (Item.kind.inj same).symm
    have whole : (ofKinds h kinds).Holds .anything :=
      ofKindsHolds.mpr ⟨kind, listed, tracked, .inl top⟩
    rw [set] at whole
    exact whole

theorem unionAdmits {kind : Kind} :
    (a.union b).admits h kind = true ↔ a.admits h kind = true ∨ b.admits h kind = true := by
  simp only [admitsHolds, unionHolds, or_and_right, exists_or]

theorem unionSubsumed :
    c.subsumes h (a.union b) = true ↔ c.subsumes h a = true ∧ c.subsumes h b = true := by
  simp only [subsumesTakes, unionHolds, or_imp, forall_and]

theorem isEmptyHolds : a.isEmpty = true ↔ ∀ x, ¬a.Holds x := by
  cases a with
  | unknown => exact iff_of_false Bool.false_ne_true fun none => none .anything trivial
  | known kinds =>
    constructor
    · intro none x held
      have nothing : kinds.toList = [] := List.isEmpty_iff.mp none
      cases x with
      | anything => exact held
      | kind kind =>
        rw [knownHoldsKind, NameSet.memIff, nothing] at held
        exact List.not_mem_nil held
    · intro none
      exact List.isEmpty_iff.mpr (List.eq_nil_iff_forall_not_mem.mpr fun kind => none (.kind kind))

theorem uncoveredHolds {x : Item} :
    (a.uncoveredBy h b).Holds x ↔ ∃ y, a.Holds y ∧ ¬b.Takes h y ∧ y.Yields x := by
  cases b with
  | unknown =>
    constructor
    · intro held
      exact (emptyHolds held).elim
    · intro given
      obtain ⟨y, _, refused, _⟩ := given
      exact absurd (unknownTakes y) refused
  | known wide =>
    cases a with
    | unknown =>
      have refused : ¬(known wide).Takes h .anything := by
        intro takes
        cases takes
      exact ⟨fun _ => ⟨.anything, trivial, refused, .inl rfl⟩, fun _ => trivial⟩
    | known members =>
      constructor
      · intro held
        cases x with
        | anything => exact held.elim
        | kind kind =>
          obtain ⟨member, free⟩ := NameSet.memFilter.mp held
          exact ⟨.kind kind, member, by simpa [Takes, admits] using free, .inr rfl⟩
      · intro given
        obtain ⟨y, held, refused, yields⟩ := given
        cases y with
        | anything => exact held.elim
        | kind kind =>
          rcases yields with impossible | same
          · cases impossible
          · rw [← same]
            exact NameSet.memFilter.mpr ⟨held, by simpa [Takes, admits] using refused⟩

theorem uncoveredEmpty : (a.uncoveredBy h b).isEmpty = true ↔ b.subsumes h a = true := by
  rw [isEmptyHolds, subsumesTakes]
  constructor
  · intro none x held
    by_contra refused
    exact none x (uncoveredHolds.mpr ⟨x, held, refused, .inr rfl⟩)
  · intro within x missing
    obtain ⟨y, held, refused, _⟩ := uncoveredHolds.mp missing
    exact refused (within y held)

theorem mayRaiseIff {kind : Kind} :
    a.mayRaise h kind = true ↔ ∃ below, a.admits h below = true ∧ h.isCoveredBy below kind = true := by
  cases a with
  | unknown => exact ⟨fun _ => ⟨kind, rfl, Hierarchy.coveredSelf kind⟩, fun _ => rfl⟩
  | known members =>
    simp only [mayRaise, List.any_eq_true, Bool.or_eq_true]
    constructor
    · intro given
      obtain ⟨member, listed, under | above⟩ := given
      · exact ⟨member, admitsHeld listed, under⟩
      · exact ⟨kind, List.any_eq_true.mpr ⟨member, listed, above⟩, Hierarchy.coveredSelf kind⟩
    · intro given
      obtain ⟨below, admitted, under⟩ := given
      obtain ⟨member, listed, above⟩ := List.any_eq_true.mp admitted
      exact ⟨member, listed, Hierarchy.coversComparable above under⟩

theorem setsMeanKinds (arises : h.Arises) (free : b.RootFree h) :
    (b.subsumes h a = true ↔ ∀ kind, a.admits h kind = true → b.admits h kind = true) ∧
      (∀ kind, (a.union b).admits h kind = true ↔ a.admits h kind = true ∨ b.admits h kind = true) ∧
      (∀ c : EffectSet, c.subsumes h a = true → c.subsumes h b = true →
        c.subsumes h (a.union b) = true) ∧
      ((a.uncoveredBy h b).isEmpty = true ↔ b.subsumes h a = true) ∧
      (b ≠ .unknown →
        (a = .unknown → a.uncoveredBy h b = .unknown) ∧
        ∀ members, a = .known members → ∃ missing, a.uncoveredBy h b = .known missing ∧
          ∀ kind, kind ∈ missing ↔ kind ∈ members ∧ b.admits h kind = false) ∧
      ∀ kind, a.mayRaise h kind = true ↔
        ∃ below, a.admits h below = true ∧ h.isCoveredBy below kind = true := by
  refine ⟨subsumesAdmits (Hierarchy.arisesTop arises) free, fun kind => unionAdmits, ?_, uncoveredEmpty,
    ?_, fun kind => mayRaiseIff⟩
  · intro c first second
    exact unionSubsumed.mpr ⟨first, second⟩
  · intro specific
    cases b with
    | unknown => contradiction
    | known wide =>
      refine ⟨?_, ?_⟩
      · intro any
        rw [any]
        rfl
      · intro members same
        rw [same]
        exact ⟨_, rfl, fun kind => by simp [admits]⟩

def ring : List KindDecl :=
  [{ name := "Retry", parent := some "Again" }, { name := "Again", parent := some "Retry" }]

/- The extension is refused and leaves the ring behind. -/
theorem ringKindsAdmitted :
    (Hierarchy.builtin .raises).extend ring = .error (.kindCycle "Again" .raises) ∧
      (known (.ofList ["Again", "IOError"])).subsumes ((Hierarchy.builtin .raises).declare ring)
        (known (.ofList ["EOFError", "Retry"])) = true ∧
      ∀ kind, (known (.ofList ["EOFError", "Retry"])).admits ((Hierarchy.builtin .raises).declare ring)
          kind = true →
        (known (.ofList ["Again", "IOError"])).admits ((Hierarchy.builtin .raises).declare ring) kind =
          true := by
  have rejected : (Hierarchy.builtin .raises).extend ring = .error (.kindCycle "Again" .raises) := by
    decide +kernel
  have subsumed : (known (.ofList ["Again", "IOError"])).subsumes
      ((Hierarchy.builtin .raises).declare ring) (known (.ofList ["EOFError", "Retry"])) = true := by
    decide +kernel
  exact ⟨rejected, subsumed,
    (setsMeanKinds (.refused (.builtin .raises) rejected) (by decide +kernel)).1.mp subsumed⟩

end EffectAudit.EffectSet
