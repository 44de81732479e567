import EffectAudit.Proofs.Inference.Shape
/-! Visits, passes and widening. A visit changes one entry and says exactly when it does; what every
visit keeps, a pass keeps. A pass that grew nothing was evaluated on one table throughout, so that
table satisfies every rule. -/
namespace EffectAudit.Inference

variable {h : Hierarchies}

def absorbed (h : Hierarchies) (t : EffectTable) (v : Visit) (e : RoutineEffects) : RoutineEffects :=
  { e with
    raises := e.raises.absorb (Contribution.accumulate h t v.2 .raises .all)
    tags := e.tags.absorb (Contribution.accumulate h t v.2 .tags .all) }

theorem absorbedGet (t : EffectTable) (v : Visit) (e : RoutineEffects) (category : Category) :
    (absorbed h t v e).get category =
      (e.get category).absorb (Contribution.accumulate h t v.2 category .all) := by
  cases category <;> rfl

theorem visitQuiet {t : EffectTable} {v : Visit} :
    (visit h t v).2 = false ↔
      ∀ category, Contribution.accumulate h t v.2 category .all ≤ t.inferred v.1 category := by
  unfold visit
  cases found : t.get? v.1 with
  | none =>
    simp only [true_iff]
    intro category
    simp only [EffectTable.inferred, found]
    exact EffectSet.leUnknown _
  | some e =>
    have parts : (∀ category, Contribution.accumulate h t v.2 category .all ≤ t.inferred v.1 category) ↔
        e.raises.grows (Contribution.accumulate h t v.2 .raises .all) = false ∧
          e.tags.grows (Contribution.accumulate h t v.2 .tags .all) = false := by
      rw [CategoryEffects.growsFalse, CategoryEffects.growsFalse]
      constructor
      · intro all
        have raises := all .raises
        have tags := all .tags
        rw [EffectTable.inferredOfGet found] at raises tags
        exact ⟨raises, tags⟩
      · rintro ⟨raises, tags⟩ category
        rw [EffectTable.inferredOfGet found]
        cases category with
        | raises => exact raises
        | tags => exact tags
    rw [parts]
    dsimp only
    split
    · next grew =>
      simp only [Bool.true_eq_false, false_iff, not_and]
      intro quiet
      simpa [quiet] using grew
    · next still => simpa using still

theorem visitSame {t : EffectTable} {v : Visit} (quiet : (visit h t v).2 = false) :
    (visit h t v).1 = t := by
  unfold visit at quiet ⊢
  cases found : t.get? v.1 with
  | none => rfl
  | some e =>
    simp only [found] at quiet ⊢
    split at quiet
    · contradiction
    · next still => rw [if_neg still]

theorem visitTable (t : EffectTable) (v : Visit) :
    (visit h t v).1 = t.modify v.1 (absorbed h t v) := by
  cases grew : (visit h t v).2 with
  | false =>
    rw [visitSame grew]
    symm
    apply EffectTable.modifySame
    intro e found
    have quiet := visitQuiet.mp grew
    have part (category : Category) :
        (e.get category).absorb (Contribution.accumulate h t v.2 category .all) = e.get category := by
      apply CategoryEffects.absorbSame
      rw [← EffectTable.inferredOfGet found]
      exact quiet category
    have raises := part .raises
    have tags := part .tags
    simp only [RoutineEffects.get] at raises tags
    simp only [absorbed, raises, tags]
  | true =>
    unfold visit at grew ⊢
    cases found : t.get? v.1 with
    | none => simp [found] at grew
    | some e =>
      simp only [found] at grew ⊢
      split at grew
      · next moved =>
        rw [if_pos moved]
        rfl
      · contradiction

theorem visitSettled {t : EffectTable} (settled : t.Settled) (v : Visit) :
    (visit h t v).1.Settled := by
  rw [visitTable]
  intro id e found category
  rw [EffectTable.getModify] at found
  split at found
  · obtain ⟨old, there, rfl⟩ := Option.map_eq_some_iff.mp found
    rw [absorbedGet]
    exact CategoryEffects.absorbSettled (settled id old there category) _
  · exact settled id e found category

theorem leVisit {t : EffectTable} (settled : t.Settled) (v : Visit) : t ≤ (visit h t v).1 := by
  rw [visitTable]
  apply EffectTable.leModify
  intro e found
  have parts := settled v.1 e found
  exact ⟨rfl, CategoryEffects.leAbsorb (parts .raises) _, CategoryEffects.leAbsorb (parts .tags) _,
    rfl, rfl⟩

theorem visitLeAt {t bound : EffectTable} {v : Visit} {id : RoutineId}
    (below : Option.Rel (· ≤ ·) (t.get? id) (bound.get? id)) (settled : bound.Settled)
    (rule : id = v.1 → ∀ category,
      Contribution.accumulate h t v.2 category .all ≤ bound.inferred id category) :
    Option.Rel (· ≤ ·) ((visit h t v).1.get? id) (bound.get? id) := by
  rw [visitTable]
  apply EffectTable.modifyLeAt below
  intro here e b there smaller
  have part (category : Category) :
      (e.get category).absorb (Contribution.accumulate h t v.2 category .all) ≤ b.get category := by
    apply CategoryEffects.absorbLe (RoutineEffects.getLe smaller category) (settled id b there category)
    rw [← EffectTable.inferredOfGet there]
    exact rule here category
  exact ⟨smaller.1, part .raises, part .tags, smaller.2.2.2.1, smaller.2.2.2.2⟩

theorem visitLe {t bound : EffectTable} {v : Visit} (below : t ≤ bound) (settled : bound.Settled)
    (rule : ∀ category,
      Contribution.accumulate h bound v.2 category .all ≤ bound.inferred v.1 category) :
    (visit h t v).1 ≤ bound := by
  intro id
  apply visitLeAt (below id) settled
  rintro rfl category
  exact (Contribution.accumulateLe below v.2).trans (rule category)

theorem visitCovers (t : EffectTable) (v : Visit) (category : Category) :
    Contribution.accumulate h t v.2 category .all ≤ (visit h t v).1.inferred v.1 category := by
  rw [visitTable]
  unfold EffectTable.inferred
  rw [EffectTable.getModify, if_pos rfl]
  cases t.get? v.1 with
  | none => exact EffectSet.leUnknown _
  | some e =>
    simp only [Option.map_some, absorbedGet, CategoryEffects.absorbInferred]
    exact EffectSet.leUnionRight _ _

theorem visitShaped {i : Setting} {t : EffectTable} (shape : Shaped i t) {v : Visit}
    (body : ∀ r ∈ i.program.routines, r.id = v.1 → r.hasBody = true) :
    Shaped i (visit h t v).1 := by
  rw [visitTable]
  apply shapedModify shape
  intro r member name e entry
  refine ⟨entry.routine, entry.analyzed, entry.dispatched, ?_⟩
  intro category
  rw [absorbedGet]
  exact absorbShape (entry.category category) (body r member name) _

theorem isUnknownIff {e : RoutineEffects} :
    e.isUnknown = true ↔ ∀ category, (e.get category).inferred = .unknown := by
  have one (s : EffectSet) : s.isUnknown = true ↔ s = .unknown := by cases s <;> simp [EffectSet.isUnknown]
  unfold RoutineEffects.isUnknown
  rw [Bool.and_eq_true, one, one]
  constructor
  · rintro ⟨raises, tags⟩ category
    cases category with
    | raises => exact raises
    | tags => exact tags
  · intro all
    exact ⟨all .raises, all .tags⟩

theorem isUnknownLe {a b : RoutineEffects} (below : a ≤ b) (unknown : a.isUnknown = true) :
    b.isUnknown = true := by
  rw [isUnknownIff] at unknown ⊢
  intro category
  have part := (RoutineEffects.getLe below category).2.1
  rw [unknown category] at part
  exact le_antisymm (EffectSet.leUnknown _) part

theorem growingOpen {t : EffectTable} {v : Visit} (grew : (visit h t v).2 = true) :
    ∃ e, t.get? v.1 = some e ∧ e.isUnknown = false := by
  have loud : ¬(visit h t v).2 = false := by simp [grew]
  rw [visitQuiet] at loud
  cases found : t.get? v.1 with
  | none =>
    exfalso
    apply loud
    intro category
    simp only [EffectTable.inferred, found]
    exact EffectSet.leUnknown _
  | some e =>
    refine ⟨e, rfl, ?_⟩
    rw [Bool.eq_false_iff]
    intro unknown
    apply loud
    intro category
    rw [EffectTable.inferredOfGet found, isUnknownIff.mp unknown category]
    exact EffectSet.leUnknown _

def Quiet (h : Hierarchies) (visits : List Visit) (t : EffectTable) : Prop :=
  ∀ v ∈ visits, (visit h t v).2 = false

theorem passInvariant {P : EffectTable → Prop} {visits : List Visit} {t : EffectTable}
    (step : ∀ t, ∀ v ∈ visits, P t → P (visit h t v).1) (start : P t) : P (pass h t visits).1 := by
  induction visits generalizing t with
  | nil => exact start
  | cons v rest ih =>
    apply ih
    · intro t w member
      exact step t w (List.mem_cons_of_mem _ member)
    · exact step t v (List.mem_cons_self ..) start

theorem passQuiet {visits : List Visit} {t : EffectTable} :
    (pass h t visits).2 = [] ↔ Quiet h visits t := by
  induction visits generalizing t with
  | nil => simp [pass, Quiet]
  | cons v rest ih =>
    simp only [pass]
    cases grew : (visit h t v).2 with
    | true =>
      simp only [if_true, List.cons_ne_nil, false_iff]
      intro quiet
      have first := quiet v (List.mem_cons_self ..)
      rw [grew] at first
      contradiction
    | false =>
      simp only [Bool.false_eq_true, if_false]
      rw [visitSame grew, ih]
      constructor
      · intro quiet w member
        rcases List.mem_cons.mp member with rfl | later
        · exact grew
        · exact quiet w later
      · intro quiet w member
        exact quiet w (List.mem_cons_of_mem _ member)

theorem passSame {visits : List Visit} {t : EffectTable} (quiet : Quiet h visits t) :
    (pass h t visits).1 = t := by
  apply passInvariant (P := fun s => s = t)
  · rintro s v member rfl
    exact visitSame (quiet v member)
  · rfl

theorem quietRule {visits : List Visit} {t : EffectTable} (quiet : Quiet h visits t) {v : Visit}
    (member : v ∈ visits) (category : Category) :
    Contribution.accumulate h t v.2 category .all ≤ t.inferred v.1 category :=
  visitQuiet.mp (quiet v member) category

theorem passSettled {t : EffectTable} (settled : t.Settled) (visits : List Visit) :
    (pass h t visits).1.Settled :=
  passInvariant (fun _ v _ kept => visitSettled kept v) settled

theorem lePass {t : EffectTable} (settled : t.Settled) (visits : List Visit) :
    t ≤ (pass h t visits).1 := by
  have both : (pass h t visits).1.Settled ∧ t ≤ (pass h t visits).1 :=
    passInvariant (P := fun s => s.Settled ∧ t ≤ s)
      (fun _ v _ kept => ⟨visitSettled kept.1 v, kept.2.trans (leVisit kept.1 v)⟩) ⟨settled, le_rfl⟩
  exact both.2

/- Whatever the order, at the end of a pass every visited routine holds at least what its sites gave
at the start of the pass: its own visit saw a table that is no smaller. -/
theorem passCovers {t : EffectTable} (settled : t.Settled) {visits : List Visit} {v : Visit}
    (member : v ∈ visits) (category : Category) :
    Contribution.accumulate h t v.2 category .all ≤
      (pass h t visits).1.inferred v.1 category := by
  induction visits generalizing t with
  | nil => simp at member
  | cons first rest ih =>
    have kept := visitSettled (h := h) settled first
    have grown := leVisit (h := h) settled first
    rcases List.mem_cons.mp member with rfl | later
    · exact (visitCovers t v category).trans (EffectTable.inferredLe (lePass kept rest) v.1 category)
    · exact (Contribution.accumulateLe grown v.2).trans (ih kept later)

theorem grownOpen {t : EffectTable} (settled : t.Settled) {visits : List Visit} {id : RoutineId}
    (grown : id ∈ (pass h t visits).2) :
    id ∈ visits.map (·.1) ∧ ∃ e, t.get? id = some e ∧ e.isUnknown = false := by
  induction visits generalizing t with
  | nil => simp [pass] at grown
  | cons v rest ih =>
    have kept := visitSettled (h := h) settled v
    have below := leVisit (h := h) settled v
    have later (inside : id ∈ (pass h (visit h t v).1 rest).2) :
        id ∈ (v :: rest).map (·.1) ∧ ∃ e, t.get? id = some e ∧ e.isUnknown = false := by
      obtain ⟨listed, e', found, still⟩ := ih kept inside
      refine ⟨List.mem_cons_of_mem _ listed, ?_⟩
      cases there : t.get? id with
      | none => rw [EffectTable.noneOfLe below there] at found; contradiction
      | some e =>
        refine ⟨e, rfl, ?_⟩
        obtain ⟨e'', same, smaller⟩ := EffectTable.someOfLe below there
        rw [found] at same
        cases same
        rw [Bool.eq_false_iff] at still ⊢
        exact fun unknown => still (isUnknownLe smaller unknown)
    simp only [pass] at grown
    cases grew : (visit h t v).2 with
    | false =>
      simp only [grew, Bool.false_eq_true, if_false] at grown
      exact later grown
    | true =>
      simp only [grew, if_true] at grown
      rcases List.mem_cons.mp grown with rfl | inside
      · refine ⟨List.mem_cons_self .., ?_⟩
        exact growingOpen grew
      · exact later inside

end EffectAudit.Inference
