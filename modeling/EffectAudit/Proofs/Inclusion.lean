import Mathlib.Order.Bounds.Basic
import EffectAudit.Coverage
import EffectAudit.Table
/-! Effect sets by inclusion, with `unknown` on top, and tables entry by entry. An item is what a set
can hold: one kind, or anything at all. Every operation on sets is described by the items of its
result, so no later proof opens an operation again. -/
namespace EffectAudit

inductive Item where
  | anything
  | kind (kind : Kind)
  deriving DecidableEq, Repr

namespace EffectSet

def Holds : EffectSet → Item → Prop
  | unknown, _ => True
  | known _, .anything => False
  | known kinds, .kind kind => kind ∈ kinds

@[simp] theorem unknownHolds (x : Item) : unknown.Holds x := trivial

@[simp] theorem knownHoldsKind {kinds : NameSet} {kind : Kind} :
    (known kinds).Holds (.kind kind) ↔ kind ∈ kinds := Iff.rfl

@[simp] theorem knownHoldsAnything {kinds : NameSet} : ¬(known kinds).Holds .anything := id

@[simp] theorem emptyHolds {x : Item} : ¬(∅ : EffectSet).Holds x := by
  cases x with
  | anything => exact id
  | kind kind => exact NameSet.notMemEmpty kind

theorem holdsAnything {s : EffectSet} : s.Holds .anything ↔ s = unknown := by
  cases s with
  | unknown => simp
  | known kinds => simp

theorem holdsOfAnything {s : EffectSet} (any : s.Holds .anything) (x : Item) : s.Holds x := by
  rw [holdsAnything.mp any]
  exact trivial

theorem eqOfHolds {a b : EffectSet} (same : ∀ x, a.Holds x ↔ b.Holds x) : a = b := by
  cases a with
  | unknown => exact (holdsAnything.mp ((same .anything).mp trivial)).symm
  | known a =>
    cases b with
    | unknown => exact absurd ((same .anything).mpr trivial) knownHoldsAnything
    | known b =>
      congr 1
      apply NameSet.ext
      intro kind
      exact same (.kind kind)

def Included : EffectSet → EffectSet → Prop
  | _, unknown => True
  | unknown, known _ => False
  | known a, known b => ∀ kind ∈ a, kind ∈ b

theorem includedHolds {a b : EffectSet} : a.Included b ↔ ∀ x, a.Holds x → b.Holds x := by
  cases b with
  | unknown => cases a <;> simp [Included]
  | known b =>
    cases a with
    | unknown =>
      constructor
      · intro absurdity
        exact absurdity.elim
      · intro all
        exact all .anything trivial
    | known a =>
      constructor
      · intro sub x member
        cases x with
        | anything => exact member
        | kind kind => exact sub kind member
      · intro all kind member
        exact all (.kind kind) member

instance : PartialOrder EffectSet where
  le := Included
  le_refl a := includedHolds.mpr fun _ member => member
  le_trans a b c ab bc :=
    includedHolds.mpr fun x member => includedHolds.mp bc x (includedHolds.mp ab x member)
  le_antisymm a b ab ba :=
    eqOfHolds fun x => ⟨includedHolds.mp ab x, includedHolds.mp ba x⟩

theorem leHolds {a b : EffectSet} : a ≤ b ↔ ∀ x, a.Holds x → b.Holds x := includedHolds

theorem emptyLe (s : EffectSet) : ∅ ≤ s := leHolds.mpr fun _ member => (emptyHolds member).elim

theorem leUnknown (s : EffectSet) : s ≤ unknown := leHolds.mpr fun x _ => unknownHolds x

@[simp] theorem unionHolds {a b : EffectSet} {x : Item} :
    (a.union b).Holds x ↔ a.Holds x ∨ b.Holds x := by
  cases a with
  | unknown => simp [union]
  | known a =>
    cases b with
    | unknown => simp [union]
    | known b => cases x <;> simp [union]

theorem leUnionLeft (a b : EffectSet) : a ≤ a.union b :=
  leHolds.mpr fun _ member => unionHolds.mpr (.inl member)

theorem leUnionRight (a b : EffectSet) : b ≤ a.union b :=
  leHolds.mpr fun _ member => unionHolds.mpr (.inr member)

theorem unionLe {a b c : EffectSet} (left : a ≤ c) (right : b ≤ c) : a.union b ≤ c := by
  rw [leHolds] at left right ⊢
  intro x member
  rcases unionHolds.mp member with inside | inside
  · exact left x inside
  · exact right x inside

theorem unionEqLeft {a b : EffectSet} : a.union b = a ↔ b ≤ a := by
  constructor
  · intro same
    rw [← same]
    exact leUnionRight a b
  · intro below
    exact le_antisymm (unionLe le_rfl below) (leUnionLeft a b)

@[simp] theorem emptyUnion (s : EffectSet) : (∅ : EffectSet).union s = s :=
  eqOfHolds fun x => by simp

theorem unionAssoc (a b c : EffectSet) : (a.union b).union c = a.union (b.union c) := by
  apply eqOfHolds
  intro x
  simp only [unionHolds, or_assoc]

@[simp] theorem unionEmpty (s : EffectSet) : s.union ∅ = s :=
  eqOfHolds fun x => by simp

theorem foldUnionHolds {sets : List EffectSet} {start : EffectSet} {x : Item} :
    (sets.foldl union start).Holds x ↔ start.Holds x ∨ ∃ s ∈ sets, s.Holds x := by
  induction sets generalizing start with
  | nil => simp
  | cons head rest ih =>
    rw [List.foldl_cons, ih, unionHolds]
    simp [or_assoc]

end EffectSet

namespace Coverage

/- Whether a handler lets an item by. Only one that catches everything stops `anything`, for of
`anything` no list of kinds is certain to catch a part. -/
def Lets (h : Hierarchy) : Coverage → Item → Prop
  | all, _ => False
  | kinds _, .anything => True
  | kinds list, .kind kind => (Coverage.kinds list).covers h kind = false

theorem letsAnything {h : Hierarchy} {c : Coverage} {x : Item} (lets : c.Lets h x) :
    c.Lets h .anything := by
  cases c with
  | all => exact lets
  | kinds list => exact trivial

theorem anythingLet {h : Hierarchy} {c : Coverage} : c.Lets h .anything ↔ c ≠ .all := by
  cases c with
  | all => simp [Lets]
  | kinds list => simp [Lets]

theorem kindLet {h : Hierarchy} {c : Coverage} {kind : Kind} :
    c.Lets h (.kind kind) ↔ c.covers h kind = false := by
  cases c with
  | all => simp [Lets, covers]
  | kinds list => exact Iff.rfl

end Coverage

def Item.Yields (y x : Item) : Prop := y = .anything ∨ y = x

theorem EffectSet.withoutHolds {h : Hierarchy} {s : EffectSet} {c : Coverage} {x : Item} :
    (s.without h c).Holds x ↔ ∃ y, s.Holds y ∧ c.Lets h y ∧ y.Yields x := by
  cases c with
  | all => cases s <;> simp [without, Coverage.Lets]
  | kinds list =>
    cases s with
    | unknown =>
      simp only [without, unknownHolds, true_and, true_iff]
      exact ⟨.anything, trivial, .inl rfl⟩
    | known kinds =>
      constructor
      · intro member
        cases x with
        | anything => exact member.elim
        | kind kind =>
          obtain ⟨inside, kept⟩ := NameSet.memFilter.mp member
          exact ⟨.kind kind, inside, by simpa [Coverage.Lets] using kept, .inr rfl⟩
      · rintro ⟨y, inside, lets, rfl | rfl⟩
        · exact inside.elim
        · cases y with
          | anything => exact inside.elim
          | kind kind => exact NameSet.memFilter.mpr ⟨inside, by simpa [Coverage.Lets] using lets⟩

namespace CategoryEffects

def Settled (e : CategoryEffects) : Prop := e.declared = false → e.resolved = e.inferred

instance : PartialOrder CategoryEffects where
  le a b := a.resolved ≤ b.resolved ∧ a.inferred ≤ b.inferred ∧ a.declared = b.declared
  le_refl a := ⟨le_rfl, le_rfl, rfl⟩
  le_trans a b c ab bc := ⟨ab.1.trans bc.1, ab.2.1.trans bc.2.1, ab.2.2.trans bc.2.2⟩
  le_antisymm a b ab ba := by
    cases a
    cases b
    congr 1
    · exact le_antisymm ab.1 ba.1
    · exact le_antisymm ab.2.1 ba.2.1
    · exact ab.2.2

theorem withInferredSettled (e : CategoryEffects) (set : EffectSet) :
    (e.withInferred set).Settled := by
  intro undeclared
  have plain : e.declared = false := undeclared
  simp [withInferred, plain]

theorem leWithInferred {e : CategoryEffects} {set : EffectSet} (settled : e.Settled)
    (grows : e.inferred ≤ set) : e ≤ e.withInferred set := by
  refine ⟨?_, grows, rfl⟩
  cases declared : e.declared with
  | true => simp [withInferred, declared]
  | false =>
    rw [settled declared]
    simpa [withInferred, declared] using grows

theorem withInferredLe {e bound : CategoryEffects} {set : EffectSet} (below : e ≤ bound)
    (settled : bound.Settled) (small : set ≤ bound.inferred) : e.withInferred set ≤ bound := by
  refine ⟨?_, small, below.2.2⟩
  cases declared : e.declared with
  | true => simpa [withInferred, declared] using below.1
  | false =>
    rw [settled (below.2.2 ▸ declared)]
    simpa [withInferred, declared] using small

theorem absorbCases (e : CategoryEffects) (computed : EffectSet) :
    computed ≤ e.inferred ∧ e.absorb computed = e ∨
      e.absorb computed = e.withInferred (e.inferred.union computed) := by
  by_cases same : e.inferred.union computed = e.inferred
  · exact .inl ⟨EffectSet.unionEqLeft.mp same, by simp [absorb, same]⟩
  · exact .inr (by simp [absorb, same])

theorem absorbInferred (e : CategoryEffects) (computed : EffectSet) :
    (e.absorb computed).inferred = e.inferred.union computed := by
  rcases absorbCases e computed with ⟨small, same⟩ | grown
  · rw [same, EffectSet.unionEqLeft.mpr small]
  · rw [grown]
    rfl

theorem absorbSettled {e : CategoryEffects} (settled : e.Settled) (computed : EffectSet) :
    (e.absorb computed).Settled := by
  rcases absorbCases e computed with ⟨_, same⟩ | grown
  · rwa [same]
  · rw [grown]
    exact withInferredSettled e _

theorem leAbsorb {e : CategoryEffects} (settled : e.Settled) (computed : EffectSet) :
    e ≤ e.absorb computed := by
  rcases absorbCases e computed with ⟨_, same⟩ | grown
  · rw [same]
  · rw [grown]
    exact leWithInferred settled (EffectSet.leUnionLeft _ _)

theorem absorbLe {e bound : CategoryEffects} {computed : EffectSet} (below : e ≤ bound)
    (settled : bound.Settled) (small : computed ≤ bound.inferred) : e.absorb computed ≤ bound := by
  rcases absorbCases e computed with ⟨_, same⟩ | grown
  · rwa [same]
  · rw [grown]
    exact withInferredLe below settled (EffectSet.unionLe below.2.1 small)

theorem growsFalse {e : CategoryEffects} {computed : EffectSet} :
    e.grows computed = false ↔ computed ≤ e.inferred := by
  simp [grows, EffectSet.unionEqLeft]

theorem absorbSame {e : CategoryEffects} {computed : EffectSet} (small : computed ≤ e.inferred) :
    e.absorb computed = e := by
  simp [absorb, EffectSet.unionEqLeft.mpr small]

end CategoryEffects

namespace RoutineEffects

def Settled (e : RoutineEffects) : Prop := ∀ category, (e.get category).Settled

instance : PartialOrder RoutineEffects where
  le a b := a.routine = b.routine ∧ a.raises ≤ b.raises ∧ a.tags ≤ b.tags ∧
    a.analyzed = b.analyzed ∧ a.dispatched = b.dispatched
  le_refl a := ⟨rfl, le_rfl, le_rfl, rfl, rfl⟩
  le_trans a b c ab bc := ⟨ab.1.trans bc.1, ab.2.1.trans bc.2.1, ab.2.2.1.trans bc.2.2.1,
    ab.2.2.2.1.trans bc.2.2.2.1, ab.2.2.2.2.trans bc.2.2.2.2⟩
  le_antisymm a b ab ba := by
    cases a
    cases b
    congr 1
    · exact ab.1
    · exact le_antisymm ab.2.1 ba.2.1
    · exact le_antisymm ab.2.2.1 ba.2.2.1
    · exact ab.2.2.2.1
    · exact ab.2.2.2.2

theorem getLe {a b : RoutineEffects} (below : a ≤ b) (category : Category) :
    a.get category ≤ b.get category := by
  cases category with
  | raises => exact below.2.1
  | tags => exact below.2.2.1

theorem referenceSetLe {a b : RoutineEffects} (below : a ≤ b) (category : Category) :
    a.referenceSet category ≤ b.referenceSet category := by
  have part := getLe below category
  unfold referenceSet
  rw [below.2.2.2.2, part.2.2]
  split
  · exact le_rfl
  · exact part.1

end RoutineEffects

namespace EffectTable

@[ext] theorem ext {s t : EffectTable} (same : ∀ id, s.get? id = t.get? id) : s = t := by
  cases s
  cases t
  congr 1
  exact NameMap.ext same

def inferred (t : EffectTable) (id : RoutineId) (category : Category) : EffectSet :=
  match t.get? id with
  | none => .unknown
  | some effects => (effects.get category).inferred

def Settled (t : EffectTable) : Prop := ∀ id e, t.get? id = some e → e.Settled

theorem entryAntisymm {a b : Option RoutineEffects} (ab : Option.Rel (· ≤ ·) a b)
    (ba : Option.Rel (· ≤ ·) b a) : a = b := by
  cases ab with
  | none => rfl
  | some one =>
    cases ba with
    | some two => rw [le_antisymm one two]

/- Tables are compared only over the same routines: an entry stands against an entry. -/
instance : PartialOrder EffectTable where
  le s t := ∀ id, Option.Rel (· ≤ ·) (s.get? id) (t.get? id)
  le_refl s id := by
    cases s.get? id with
    | none => exact .none
    | some e => exact .some le_rfl
  le_trans r s t rs st id := by
    have first := rs id
    have second := st id
    cases hr : r.get? id with
    | none =>
      rw [hr] at first
      cases hs : s.get? id with
      | none => rwa [hs] at second
      | some e => rw [hs] at first; cases first
    | some e =>
      rw [hr] at first
      cases hs : s.get? id with
      | none => rw [hs] at first; cases first
      | some e' =>
        rw [hs] at first second
        cases ht : t.get? id with
        | none => rw [ht] at second; cases second
        | some e'' =>
          rw [ht] at second
          cases first with
          | some one =>
            cases second with
            | some two => exact .some (one.trans two)
  le_antisymm s t st ts := EffectTable.ext fun id => entryAntisymm (st id) (ts id)

theorem someOfLe {s t : EffectTable} (below : s ≤ t) {id : RoutineId} {e : RoutineEffects}
    (found : s.get? id = some e) : ∃ e', t.get? id = some e' ∧ e ≤ e' := by
  have entry := below id
  rw [found] at entry
  cases ht : t.get? id with
  | none => rw [ht] at entry; cases entry
  | some e' =>
    rw [ht] at entry
    cases entry with
    | some smaller => exact ⟨e', rfl, smaller⟩

theorem noneOfLe {s t : EffectTable} (below : s ≤ t) {id : RoutineId}
    (absent : s.get? id = none) : t.get? id = none := by
  have entry := below id
  rw [absent] at entry
  cases ht : t.get? id with
  | none => rfl
  | some e' => rw [ht] at entry; cases entry

theorem referenceSetLeAt {s t : EffectTable} {id : RoutineId}
    (entry : Option.Rel (· ≤ ·) (s.get? id) (t.get? id)) (category : Category) :
    s.referenceSet id category ≤ t.referenceSet id category := by
  unfold referenceSet
  generalize s.get? id = a at entry ⊢
  generalize t.get? id = b at entry ⊢
  cases entry with
  | none => exact le_rfl
  | some smaller => exact RoutineEffects.referenceSetLe smaller category

theorem referenceSetLe {s t : EffectTable} (below : s ≤ t) (id : RoutineId) (category : Category) :
    s.referenceSet id category ≤ t.referenceSet id category :=
  referenceSetLeAt (below id) category

theorem inferredLe {s t : EffectTable} (below : s ≤ t) (id : RoutineId) (category : Category) :
    s.inferred id category ≤ t.inferred id category := by
  unfold inferred
  cases hs : s.get? id with
  | none => rw [noneOfLe below hs]
  | some e =>
    obtain ⟨e', found, smaller⟩ := someOfLe below hs
    rw [found]
    exact (RoutineEffects.getLe smaller category).2.1

theorem resolvedLe {s t : EffectTable} (below : s ≤ t) (id : RoutineId) (category : Category) :
    s.resolved id category ≤ t.resolved id category := by
  unfold resolved
  cases hs : s.get? id with
  | none => rw [noneOfLe below hs]
  | some e =>
    obtain ⟨e', found, smaller⟩ := someOfLe below hs
    rw [found]
    exact (RoutineEffects.getLe smaller category).1

theorem inferredOfGet {t : EffectTable} {id : RoutineId} {e : RoutineEffects}
    (found : t.get? id = some e) (category : Category) :
    t.inferred id category = (e.get category).inferred := by
  simp [inferred, found]

theorem getModify {t : EffectTable} {id x : RoutineId} {f : RoutineEffects → RoutineEffects} :
    (t.modify id f).get? x = if x = id then (t.get? x).map f else t.get? x :=
  NameMap.getModify

theorem leModify {t : EffectTable} {id : RoutineId} {f : RoutineEffects → RoutineEffects}
    (grows : ∀ e, t.get? id = some e → e ≤ f e) : t ≤ t.modify id f := by
  intro x
  rw [getModify]
  split
  · next same =>
    subst same
    cases found : t.get? x with
    | none => exact .none
    | some e => exact .some (grows e found)
  · exact (le_refl t) x

theorem modifyLeAt {t bound : EffectTable} {id x : RoutineId} {f : RoutineEffects → RoutineEffects}
    (below : Option.Rel (· ≤ ·) (t.get? x) (bound.get? x))
    (small : x = id → ∀ e b, bound.get? x = some b → e ≤ b → f e ≤ b) :
    Option.Rel (· ≤ ·) ((t.modify id f).get? x) (bound.get? x) := by
  rw [getModify]
  split
  · next same =>
    generalize t.get? x = a at below ⊢
    cases there : bound.get? x with
    | none =>
      rw [there] at below
      cases below
      exact .none
    | some b =>
      rw [there] at below
      cases below with
      | some smaller => exact .some (small same _ b there smaller)
  · exact below

theorem modifySame {t : EffectTable} {id : RoutineId} {f : RoutineEffects → RoutineEffects}
    (fixed : ∀ e, t.get? id = some e → f e = e) : t.modify id f = t := by
  apply EffectTable.ext
  intro x
  rw [getModify]
  split
  · next same =>
    subst same
    cases found : t.get? x with
    | none => rfl
    | some e => simp [fixed e found]
  · rfl

end EffectTable
end EffectAudit
