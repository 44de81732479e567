import EffectAudit.Contribution
import EffectAudit.Proofs.Inclusion
/-! The sum over a routine's sites, read item by item: an item is in the sum when a site delivers it
past the handlers around that site. A site reads the table through at most one routine, so a larger
table gives larger sums. -/
namespace EffectAudit

def Item.Escapes (h : Hierarchies) (filter : SiteFilter) (category : Category)
    (context : Site.Context) (y : Item) : Prop :=
  category = .raises → ∀ g ∈ context.guards, filter.applies g = true → g.coverage.Lets h.raises y

theorem Item.anythingEscapes {h : Hierarchies} {filter : SiteFilter} {category : Category}
    {context : Site.Context} {y : Item} (escapes : y.Escapes h filter category context) :
    Item.anything.Escapes h filter category context :=
  fun raises g member applies => Coverage.letsAnything (escapes raises g member applies)

namespace RoutineSites

variable {events : List Site.Event}

theorem edgeListed {edge : EdgeKind} {target : EdgeTarget} {context : Site.Context} {span : Span}
    (event : .edge edge target context span ∈ events) (id : RoutineId) :
    ∃ ordinal, ⟨ordinal, edge, target, context, span⟩ ∈ (RoutineSites.ofEvents id events).edges := by
  obtain ⟨ordinal, there⟩ := List.mem_iff_getElem?.mp event
  exact ⟨ordinal, List.mem_filterMap.mpr ⟨_, List.mk_mem_zipIdx_iff_getElem?.mpr there, rfl⟩⟩

theorem raiseListed {raised : Raised} {context : Site.Context} {span : Span}
    (event : .raise raised context span ∈ events) (id : RoutineId) :
    ∃ ordinal, ⟨ordinal, raised, context, span⟩ ∈ (RoutineSites.ofEvents id events).raises := by
  obtain ⟨ordinal, there⟩ := List.mem_iff_getElem?.mp event
  exact ⟨ordinal, List.mem_filterMap.mpr ⟨_, List.mk_mem_zipIdx_iff_getElem?.mpr there, rfl⟩⟩

end RoutineSites

def Site.Edge.subject? (category : Category) (site : Site.Edge) : Option RoutineId :=
  if site.kind = .indirectParam then none
  else
    match site.target with
    | .routine id => some id
    | .binding _ bound origin => if (bound.effects.declared category).isNone then origin else none
    | .param _ => none
    | .computed => none

theorem Site.Edge.subjectTarget {site : Site.Edge} {category : Category} {id : RoutineId}
    (subject : site.subject? category = some id) : site.target.routine? = some id := by
  unfold Site.Edge.subject? at subject
  split at subject
  · contradiction
  · cases target : site.target with
    | routine other =>
      rw [target] at subject
      exact subject
    | param name => simp [target] at subject
    | computed => simp [target] at subject
    | binding name bound origin =>
      simp only [target] at subject
      split at subject
      · exact subject
      · contradiction

namespace Contribution

variable {h : Hierarchies} {filter : SiteFilter} {category : Category}

theorem ofEdgeSubject {table : EffectTable} {site : Site.Edge} {id : RoutineId}
    (subject : site.subject? category = some id) :
    ofEdge h table category site = table.referenceSet id category := by
  unfold Site.Edge.subject? at subject
  unfold ofEdge
  split at subject
  · contradiction
  · next direct =>
    rw [if_neg direct]
    cases target : site.target with
    | routine other =>
      simp only [target, Option.some.injEq] at subject
      simp [ofTarget, subject]
    | param name => simp [target] at subject
    | computed => simp [target] at subject
    | binding name bound origin =>
      simp only [target] at subject
      split at subject
      · next free =>
        rw [Option.isNone_iff_eq_none] at free
        simp [ofTarget, free, subject]
      · contradiction

theorem ofEdgeFree {site : Site.Edge} (free : site.subject? category = none)
    (s t : EffectTable) : ofEdge h s category site = ofEdge h t category site := by
  unfold Site.Edge.subject? at free
  unfold ofEdge
  split
  · rfl
  · next direct =>
    rw [if_neg direct] at free
    cases target : site.target with
    | routine other => simp [target] at free
    | param name => rfl
    | computed => rfl
    | binding name bound origin =>
      simp only [target] at free
      cases declared : bound.effects.declared category with
      | some kinds => simp [ofTarget, declared]
      | none =>
        simp only [declared, Option.isNone_none, if_true] at free
        simp [ofTarget, declared, free]

theorem ofEdgeLe {s t : EffectTable} {site : Site.Edge}
    (below : ∀ id, site.subject? category = some id →
      s.referenceSet id category ≤ t.referenceSet id category) :
    ofEdge h s category site ≤ ofEdge h t category site := by
  cases subject : site.subject? category with
  | none => rw [ofEdgeFree subject s t]
  | some id =>
    rw [ofEdgeSubject subject, ofEdgeSubject subject]
    exact below id subject

/- Handlers are passed one after the other. What has become `anything` on the way came from
`anything` at the start, so the handlers may be asked all at once. -/
theorem foldWithoutHolds {guards : List Guard} {set : EffectSet} {x : Item} :
    (guards.foldl (fun set g => set.without h.raises g.coverage) set).Holds x ↔
      ∃ y, set.Holds y ∧ (∀ g ∈ guards, g.coverage.Lets h.raises y) ∧ y.Yields x := by
  induction guards generalizing set with
  | nil =>
    constructor
    · intro member
      exact ⟨x, member, by simp, .inr rfl⟩
    · rintro ⟨y, member, _, rfl | rfl⟩
      · exact EffectSet.holdsOfAnything member x
      · exact member
  | cons g rest ih =>
    rw [List.foldl_cons, ih]
    constructor
    · rintro ⟨y, member, lets, yields⟩
      obtain ⟨z, inside, first, onward⟩ := EffectSet.withoutHolds.mp member
      refine ⟨z, inside, ?_, ?_⟩
      · intro other within
        rcases List.mem_cons.mp within with rfl | later
        · exact first
        · rcases onward with rfl | rfl
          · exact Coverage.letsAnything (lets other later)
          · exact lets other later
      · rcases onward with rfl | rfl
        · exact .inl rfl
        · exact yields
    · rintro ⟨y, member, lets, yields⟩
      refine ⟨y, ?_, fun other within => lets other (List.mem_cons_of_mem _ within), yields⟩
      exact EffectSet.withoutHolds.mpr ⟨y, member, lets g (List.mem_cons_self ..), .inr rfl⟩

theorem escapingHolds {context : Site.Context} {set : EffectSet} {x : Item} :
    (escaping h filter category context set).Holds x ↔
      ∃ y, set.Holds y ∧ y.Escapes h filter category context ∧ y.Yields x := by
  cases category with
  | tags =>
    constructor
    · intro member
      exact ⟨x, member, by simp [Item.Escapes], .inr rfl⟩
    · rintro ⟨y, member, _, rfl | rfl⟩
      · exact EffectSet.holdsOfAnything member x
      · exact member
  | raises =>
    unfold escaping
    rw [foldWithoutHolds]
    simp [Item.Escapes]

@[simp] theorem escapingEmpty (context : Site.Context) : escaping h filter category context ∅ = ∅ :=
  EffectSet.eqOfHolds fun x => by simp [escapingHolds]

theorem escapingUnion (context : Site.Context) (a b : EffectSet) :
    escaping h filter category context (a.union b) =
      (escaping h filter category context a).union (escaping h filter category context b) := by
  apply EffectSet.eqOfHolds
  intro x
  simp only [escapingHolds, EffectSet.unionHolds, or_and_right, exists_or]

theorem escapingGuards {context other : Site.Context} (same : context.guards = other.guards)
    (set : EffectSet) :
    escaping h filter category context set = escaping h filter category other set := by
  unfold escaping
  rw [same]

inductive Delivers (h : Hierarchies) (table : EffectTable) (sites : RoutineSites)
    (category : Category) (filter : SiteFilter) (y : Item) : Prop where
  | edge (site : Site.Edge) (listed : site ∈ sites.edges)
      (admitted : filter.admits site.ordinal site.context = true)
      (held : (ofEdge h table category site).Holds y)
      (escapes : y.Escapes h filter category site.context)
  | raise (site : Site.Raise) (raises : category = .raises) (listed : site ∈ sites.raises)
      (admitted : filter.admits site.ordinal site.context = true)
      (held : (ofRaise h site).Holds y)
      (escapes : y.Escapes h filter category site.context)

theorem accumulateHolds {table : EffectTable} {sites : RoutineSites} {x : Item} :
    (accumulate h table sites category filter).Holds x ↔
      ∃ y, Delivers h table sites category filter y ∧ y.Yields x := by
  unfold accumulate
  rw [EffectSet.foldUnionHolds]
  constructor
  · rintro (member | ⟨set, listed, member⟩)
    · exact (EffectSet.emptyHolds member).elim
    · rcases List.mem_append.mp listed with edges | raises
      · obtain ⟨site, inside, rfl⟩ := List.mem_map.mp edges
        obtain ⟨there, admitted⟩ := List.mem_filter.mp inside
        obtain ⟨y, held, escapes, yields⟩ := escapingHolds.mp member
        exact ⟨y, .edge site there admitted held escapes, yields⟩
      · cases category with
        | tags => simp [ofRaises] at raises
        | raises =>
          obtain ⟨site, inside, rfl⟩ := List.mem_map.mp raises
          obtain ⟨there, admitted⟩ := List.mem_filter.mp inside
          obtain ⟨y, held, escapes, yields⟩ := escapingHolds.mp member
          exact ⟨y, .raise site rfl there admitted held escapes, yields⟩
  · rintro ⟨y, delivered, yields⟩
    right
    cases delivered with
    | edge site listed admitted held escapes =>
      refine ⟨_, List.mem_append_left _ (List.mem_map_of_mem (List.mem_filter.mpr ⟨listed, admitted⟩)), ?_⟩
      exact escapingHolds.mpr ⟨y, held, escapes, yields⟩
    | raise site raises listed admitted held escapes =>
      subst raises
      refine ⟨_, List.mem_append_right _ (List.mem_map_of_mem (List.mem_filter.mpr ⟨listed, admitted⟩)), ?_⟩
      exact escapingHolds.mpr ⟨y, held, escapes, yields⟩

theorem accumulateLeAt {s t : EffectTable} {sites : RoutineSites}
    (below : ∀ site ∈ sites.edges, ∀ id, site.subject? category = some id →
      s.referenceSet id category ≤ t.referenceSet id category) :
    accumulate h s sites category filter ≤ accumulate h t sites category filter := by
  rw [EffectSet.leHolds]
  intro x member
  obtain ⟨y, delivered, yields⟩ := accumulateHolds.mp member
  refine accumulateHolds.mpr ⟨y, ?_, yields⟩
  cases delivered with
  | edge site listed admitted held escapes =>
    have grown := EffectSet.leHolds.mp (ofEdgeLe (h := h) (below site listed)) y held
    exact .edge site listed admitted grown escapes
  | raise site raises listed admitted held escapes =>
    exact .raise site raises listed admitted held escapes

theorem accumulateLe {s t : EffectTable} (below : s ≤ t) (sites : RoutineSites) :
    accumulate h s sites category filter ≤ accumulate h t sites category filter :=
  accumulateLeAt fun _ _ id _ => EffectTable.referenceSetLe below id category

end Contribution
end EffectAudit
