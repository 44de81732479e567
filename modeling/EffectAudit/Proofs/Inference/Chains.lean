import Mathlib.Data.Finset.Card
import EffectAudit.Proofs.Inference.LeastSolution
/-! Where an item comes from. An item reaches a routine along a chain of references through routines
whose sets are still open, ending at a site that brings the item by itself. No handler on the way may
stop it. A table made by visits holds exactly what chains deliver, and a chain never has to be longer
than the number of bodies. -/
namespace EffectAudit

def Program.bodyCount (p : Program) : Nat := p.routines.countP (·.hasBody)

namespace Inference

def Transparent (i : Setting) (category : Category) (id : RoutineId) : Prop :=
  ∃ r ∈ i.program.routines,
    r.id = id ∧ r.hasBody = true ∧ r.kind.isDispatched = false ∧ r.declared category = none

inductive Source (i : Setting) (category : Category) (x : Item) (id : RoutineId) : Prop where
  | raise (sites : RoutineSites) (site : Site.Raise) (found : i.graph.sites? id = some sites)
      (raises : category = .raises) (listed : site ∈ sites.raises)
      (held : (Contribution.ofRaise i.hierarchies site).Holds x)
      (escapes : x.Escapes i.hierarchies .all category site.context)
  | edge (sites : RoutineSites) (site : Site.Edge) (found : i.graph.sites? id = some sites)
      (listed : site ∈ sites.edges)
      (fixed : ∀ callee, site.subject? category = some callee → ¬Transparent i category callee)
      (held : (Contribution.ofEdge i.hierarchies (seed i) category site).Holds x)
      (escapes : x.Escapes i.hierarchies .all category site.context)

def Link (i : Setting) (category : Category) (x : Item) (id callee : RoutineId) : Prop :=
  ∃ sites site, i.graph.sites? id = some sites ∧ site ∈ sites.edges ∧
    site.subject? category = some callee ∧ Transparent i category callee ∧
    x.Escapes i.hierarchies .all category site.context

def Chain (i : Setting) (category : Category) (x : Item) : Nat → RoutineId → Prop
  | 0, _ => False
  | length + 1, id =>
    Source i category x id ∨ ∃ callee, Link i category x id callee ∧ Chain i category x length callee

variable {i : Setting} {category : Category}

theorem chainLonger {x : Item} {length : Nat} {id : RoutineId} (chain : Chain i category x length id) :
    Chain i category x (length + 1) id := by
  induction length generalizing id with
  | zero => exact chain.elim
  | succ length ih =>
    rcases chain with source | ⟨callee, link, rest⟩
    · exact .inl source
    · exact .inr ⟨callee, link, ih rest⟩

theorem linkAnything {x : Item} {id callee : RoutineId} (link : Link i category x id callee) :
    Link i category .anything id callee := by
  obtain ⟨sites, site, found, listed, subject, transparent, escapes⟩ := link
  exact ⟨sites, site, found, listed, subject, transparent, Item.anythingEscapes escapes⟩

theorem transparentReference {t : EffectTable} (shape : Shaped i t) {id : RoutineId}
    (transparent : Transparent i category id) :
    t.referenceSet id category = t.inferred id category := by
  obtain ⟨r, listed, rfl, _, plain, free⟩ := transparent
  obtain ⟨e, found, entry⟩ := shape.entry r listed
  have undispatched : e.dispatched = false := entry.dispatched.trans plain
  simp only [EffectTable.referenceSet, EffectTable.inferred, found, RoutineEffects.referenceSet,
    undispatched, Bool.false_and, Bool.false_eq_true, if_false]
  exact (entry.category category).settled free

theorem fixedReference (distinct : (i.program.routines.map (·.id)).Nodup) {t : EffectTable}
    (shape : Shaped i t) {id : RoutineId} (fixed : ¬Transparent i category id) :
    t.referenceSet id category = (seed i).referenceSet id category := by
  have first := seedShaped (i := i) distinct
  by_cases known : ∃ r ∈ i.program.routines, r.id = id
  · obtain ⟨r, listed, rfl⟩ := known
    obtain ⟨e, found, entry⟩ := shape.entry r listed
    obtain ⟨s, there, start⟩ := first.entry r listed
    have now := entry.category category
    have before := start.category category
    simp only [EffectTable.referenceSet, found, there, RoutineEffects.referenceSet,
      entry.dispatched, start.dispatched, now.declared, before.declared]
    cases given : r.declared category with
    | some kinds =>
      simp only [Option.isSome_some, Bool.not_true, Bool.and_false, Bool.false_eq_true, if_false]
      rw [now.final kinds given, before.final kinds given]
    | none =>
      cases dispatched : r.kind.isDispatched with
      | true => simp
      | false =>
        have absent : r.hasBody = false := by
          rw [Bool.eq_false_iff]
          intro body
          exact fixed ⟨r, listed, rfl, body, dispatched, given⟩
        rw [now.bodiless absent, before.bodiless absent]
  · simp only [EffectTable.referenceSet, unlistedAbsent shape known, unlistedAbsent first known]

theorem fixedEdge (distinct : (i.program.routines.map (·.id)).Nodup) {t : EffectTable}
    (shape : Shaped i t) {site : Site.Edge}
    (fixed : ∀ callee, site.subject? category = some callee → ¬Transparent i category callee) :
    Contribution.ofEdge i.hierarchies t category site =
      Contribution.ofEdge i.hierarchies (seed i) category site := by
  cases subject : site.subject? category with
  | none => exact Contribution.ofEdgeFree subject t (seed i)
  | some callee =>
    rw [Contribution.ofEdgeSubject subject, Contribution.ofEdgeSubject subject]
    exact fixedReference distinct shape (fixed callee subject)

def Arrives (i : Setting) (t : EffectTable) (category : Category) (x : Item) (id : RoutineId) : Prop :=
  Source i category x id ∨ ∃ callee, Link i category x id callee ∧ (t.inferred callee category).Holds x

theorem sumHolds (distinct : (i.program.routines.map (·.id)).Nodup) {t : EffectTable}
    (shape : Shaped i t) {id : RoutineId} {sites : RoutineSites}
    (found : i.graph.sites? id = some sites) {x : Item} :
    (Contribution.accumulate i.hierarchies t sites category .all).Holds x ↔
      ∃ y, Arrives i t category y id ∧ y.Yields x := by
  rw [Contribution.accumulateHolds]
  constructor
  · rintro ⟨y, delivered, yields⟩
    refine ⟨y, ?_, yields⟩
    cases delivered with
    | raise site raises listed admitted held escapes =>
      exact .inl (.raise sites site found raises listed held escapes)
    | edge site listed admitted held escapes =>
      by_cases transparent : ∃ callee, site.subject? category = some callee ∧ Transparent i category callee
      · obtain ⟨callee, subject, transparent⟩ := transparent
        rw [Contribution.ofEdgeSubject subject, transparentReference shape transparent] at held
        exact .inr ⟨callee, ⟨sites, site, found, listed, subject, transparent, escapes⟩, held⟩
      · have fixed : ∀ callee, site.subject? category = some callee → ¬Transparent i category callee :=
          fun callee subject seen => transparent ⟨callee, subject, seen⟩
        rw [fixedEdge distinct shape fixed] at held
        exact .inl (.edge sites site found listed fixed held escapes)
  · rintro ⟨y, arrives, yields⟩
    refine ⟨y, ?_, yields⟩
    rcases arrives with source | ⟨callee, ⟨sites', site, found', listed, subject, transparent, escapes⟩, held⟩
    · cases source with
      | raise sites' site found' raises listed held escapes =>
        cases found.symm.trans found'
        exact .raise site raises listed rfl held escapes
      | edge sites' site found' listed fixed held escapes =>
        cases found.symm.trans found'
        rw [← fixedEdge distinct shape fixed] at held
        exact .edge site listed rfl held escapes
    · cases found.symm.trans found'
      refine .edge site listed rfl ?_ escapes
      rwa [Contribution.ofEdgeSubject subject, transparentReference shape transparent]

def Complete (i : Setting) (length : Nat) (t : EffectTable) : Prop :=
  ∀ category x id, Chain i category x length id → (t.inferred id category).Holds x

def Sound (i : Setting) (t : EffectTable) : Prop :=
  ∀ v ∈ runVisits i, ∀ category x, (t.inferred v.1 category).Holds x →
    ∃ y length, Chain i category y length v.1 ∧ y.Yields x

theorem chainVisited (built : CallGraph.ofProgram i.program i.hierarchies = .ok i.graph) {x : Item}
    {length : Nat} {id : RoutineId} (chain : Chain i category x length id) :
    ∃ sites, i.graph.sites? id = some sites ∧ (id, sites) ∈ runVisits i := by
  have bodied {sites : RoutineSites} (found : i.graph.sites? id = some sites)
      (sited : sites.edges ≠ [] ∨ sites.raises ≠ []) :
      ∃ sites, i.graph.sites? id = some sites ∧ (id, sites) ∈ runVisits i := by
    refine ⟨sites, found, (visited built).mpr ?_⟩
    obtain ⟨r, listed, name, walked⟩ := CallGraph.routineOfSites built found
    refine ⟨r, listed, name, ?_, found⟩
    cases body : r.body with
    | some block => simp [Routine.hasBody, body]
    | none =>
      obtain ⟨edges, raises⟩ := Collect.routineSitesBodiless walked body
      rcases sited with one | one
      · exact absurd edges one
      · exact absurd raises one
  cases length with
  | zero => exact chain.elim
  | succ length =>
    rcases chain with source | ⟨callee, ⟨sites, site, found, listed, _⟩, _⟩
    · cases source with
      | raise sites site found raises listed held escapes =>
        exact bodied found (.inr (List.ne_nil_of_mem listed))
      | edge sites site found listed fixed held escapes =>
        exact bodied found (.inl (List.ne_nil_of_mem listed))
    · exact bodied found (.inl (List.ne_nil_of_mem listed))

theorem transparentVisited (built : CallGraph.ofProgram i.program i.hierarchies = .ok i.graph)
    {id : RoutineId} (transparent : Transparent i category id) :
    ∃ sites, (id, sites) ∈ runVisits i := by
  obtain ⟨r, listed, rfl, body, _, _⟩ := transparent
  obtain ⟨sites, found, _⟩ := CallGraph.sitesOfRoutine built listed
  exact ⟨sites, (visited built).mpr ⟨r, listed, rfl, body, found⟩⟩

/- Every pass carries every item one reference further, in whatever order it visits. -/
theorem passComplete (built : CallGraph.ofProgram i.program i.hierarchies = .ok i.graph)
    {length : Nat} {t : EffectTable} (shape : Shaped i t) (complete : Complete i length t) :
    Complete i (length + 1) (pass i.hierarchies t (runVisits i)).1 := by
  intro category x id chain
  obtain ⟨sites, found, member⟩ := chainVisited built chain
  have arrives : Arrives i t category x id := by
    rcases chain with source | ⟨callee, link, rest⟩
    · exact .inl source
    · exact .inr ⟨callee, link, complete category x callee rest⟩
  have held : (Contribution.accumulate i.hierarchies t sites category .all).Holds x :=
    (sumHolds (CallGraph.ofProgramOk.mp built).1 shape found).mpr ⟨x, arrives, .inr rfl⟩
  exact EffectSet.leHolds.mp (passCovers (shapedSettled shape) member category) x held

/- What a sum over a sound table holds comes along a chain. If the chain to the callee carries
`anything`, the reference passes that on as well. -/
theorem sumSound (built : CallGraph.ofProgram i.program i.hierarchies = .ok i.graph)
    {t : EffectTable} (shape : Shaped i t) (sound : Sound i t) {id : RoutineId} {sites : RoutineSites}
    (found : i.graph.sites? id = some sites) {x : Item}
    (held : (Contribution.accumulate i.hierarchies t sites category .all).Holds x) :
    ∃ y length, Chain i category y length id ∧ y.Yields x := by
  obtain ⟨y, arrives, yields⟩ := (sumHolds (CallGraph.ofProgramOk.mp built).1 shape found).mp held
  rcases arrives with source | ⟨callee, link, there⟩
  · exact ⟨y, 1, .inl source, yields⟩
  · have ⟨_, _, _, _, _, transparent, _⟩ := link
    obtain ⟨sites', member⟩ := transparentVisited built transparent
    obtain ⟨z, length, chain, onward⟩ := sound (callee, sites') member category y there
    rcases onward with rfl | rfl
    · exact ⟨.anything, length + 1, .inr ⟨callee, linkAnything link, chain⟩, .inl rfl⟩
    · exact ⟨z, length + 1, .inr ⟨callee, link, chain⟩, yields⟩

theorem visitSound (built : CallGraph.ofProgram i.program i.hierarchies = .ok i.graph)
    {t : EffectTable} (shape : Shaped i t) (sound : Sound i t) {w : Visit}
    (inside : w ∈ runVisits i) : Sound i (visit i.hierarchies t w).1 := by
  intro v member category x held
  rw [visitInferred] at held
  split at held
  · next same =>
    rcases EffectSet.unionHolds.mp held with old | new
    · exact sound v member category x old
    · obtain ⟨_, _, _, _, found⟩ := (visited built).mp inside
      rw [same]
      exact sumSound built shape sound found new
  · exact sound v member category x held

theorem seedSound (built : CallGraph.ofProgram i.program i.hierarchies = .ok i.graph) :
    Sound i (seed i) := by
  intro v member category x held
  rw [seedInferred built member] at held
  exact (EffectSet.emptyHolds held).elim

theorem levelsSettle {α : Type} {level : Nat → Finset α} {bound : Nat}
    (small : ∀ n, (level n).card ≤ bound) (grows : ∀ n, level n ⊆ level (n + 1))
    (stays : ∀ n, level n = level (n + 1) → level (n + 1) = level (n + 2)) :
    level bound = level (bound + 1) := by
  by_contra moving
  have moves : ∀ n ≤ bound, level n ≠ level (n + 1) := by
    intro n le still
    have onward : ∀ k, level (n + k) = level (n + k + 1) := by
      intro k
      induction k with
      | zero => exact still
      | succ k ih => exact stays (n + k) ih
    obtain ⟨k, rfl⟩ := Nat.exists_eq_add_of_le le
    exact moving (onward k)
  have large : ∀ n ≤ bound + 1, n ≤ (level n).card := by
    intro n
    induction n with
    | zero => omega
    | succ n ih =>
      intro le
      have more := Finset.card_lt_card
        (Finset.ssubset_iff_subset_ne.mpr ⟨grows n, moves n (by omega)⟩)
      have before := ih (by omega)
      omega
  have top := large (bound + 1) le_rfl
  have cap := small (bound + 1)
  omega

open Classical in
noncomputable def reached (i : Setting) (category : Category) (x : Item) (length : Nat) :
    Finset RoutineId :=
  ((i.program.routines.filter (·.hasBody)).map (·.id)).toFinset.filter (Chain i category x length)

open Classical in
theorem memReached (built : CallGraph.ofProgram i.program i.hierarchies = .ok i.graph) {x : Item}
    {length : Nat} {id : RoutineId} :
    id ∈ reached i category x length ↔ Chain i category x length id := by
  unfold reached
  rw [Finset.mem_filter]
  constructor
  · exact fun both => both.2
  · intro chain
    refine ⟨?_, chain⟩
    obtain ⟨sites, _, member⟩ := chainVisited built chain
    obtain ⟨r, listed, name, body, _⟩ := (visited built).mp member
    rw [List.mem_toFinset, List.mem_map]
    exact ⟨r, List.mem_filter.mpr ⟨listed, body⟩, name⟩

open Classical in
theorem reachedCard (i : Setting) (category : Category) (x : Item) (length : Nat) :
    (reached i category x length).card ≤ i.program.bodyCount := by
  refine (Finset.card_filter_le _ _).trans ((List.toFinset_card_le _).trans ?_)
  rw [List.length_map, Program.bodyCount, List.countP_eq_length_filter]

theorem chainShort (built : CallGraph.ofProgram i.program i.hierarchies = .ok i.graph) {x : Item}
    {length : Nat} {id : RoutineId} (chain : Chain i category x length id) :
    Chain i category x i.program.bodyCount id := by
  have stays (n : Nat) (still : reached i category x n = reached i category x (n + 1)) :
      reached i category x (n + 1) = reached i category x (n + 2) := by
    ext id
    rw [memReached built, memReached built]
    refine ⟨chainLonger, ?_⟩
    rintro (source | ⟨callee, link, rest⟩)
    · exact .inl source
    · rw [← memReached built, ← still, memReached built] at rest
      exact .inr ⟨callee, link, rest⟩
  have settled := levelsSettle (reachedCard i category x)
    (fun n id member => (memReached built).mpr (chainLonger ((memReached built).mp member))) stays
  -- past the bound nothing new is reached, one level at a time
  induction length generalizing id with
  | zero => exact chain.elim
  | succ length ih =>
    rw [← memReached built, settled, memReached built]
    rcases chain with source | ⟨callee, link, rest⟩
    · exact .inl source
    · exact .inr ⟨callee, link, ih rest⟩

theorem completeQuiet (built : CallGraph.ofProgram i.program i.hierarchies = .ok i.graph)
    {t : EffectTable} (shape : Shaped i t) (sound : Sound i t)
    (complete : Complete i i.program.bodyCount t) : Quiet i.hierarchies (runVisits i) t := by
  intro v member
  rw [visitQuiet]
  intro category
  rw [EffectSet.leHolds]
  intro x held
  obtain ⟨_, _, _, _, found⟩ := (visited built).mp member
  obtain ⟨y, length, chain, yields⟩ := sumSound built shape sound found held
  have there := complete category y v.1 (chainShort built chain)
  rcases yields with rfl | rfl
  · exact EffectSet.holdsOfAnything there x
  · exact there

end Inference
end EffectAudit
