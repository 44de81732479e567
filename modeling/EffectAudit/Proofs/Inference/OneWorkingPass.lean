import EffectAudit.Proofs.CallGraph.CalleesFirst
import EffectAudit.Proofs.Inference.PassBound
/-! Callees first without mutual recursion. A visit reads the table along the calls of its routine, so
where callees come first nothing that was read changes later in the pass, apart from the routine's own
entry. What a routine reads of itself is in its set already. One pass therefore does all the work, and
a second one only finds that nothing is left to do. -/
namespace EffectAudit

namespace CallGraph

theorem aloneOrder {g : CallGraph} (distinct : g.declarationOrder.Nodup)
    (alone : ∀ component ∈ g.components, component.length = 1) :
    g.calleesFirstOrder.Pairwise fun caller later => caller ≠ later ∧ ¬g.Calls caller later := by
  have uncalled : g.calleesFirstOrder.Pairwise fun caller later => ¬g.Calls caller later := by
    refine List.pairwise_flatten.mpr ⟨?_, ?_⟩
    · intro component listed
      obtain ⟨only, single⟩ := List.length_eq_one_iff.mp (alone component listed)
      rw [single]
      exact List.pairwise_singleton ..
    · rw [List.pairwise_iff_getElem]
      intro i j low high before caller own callee other call
      have back := calleesEarlier distinct (List.getElem?_eq_getElem low) own
        (List.getElem?_eq_getElem high) other call
      omega
  exact (orderDistinct distinct).and uncalled

end CallGraph

namespace Inference

variable {h : Hierarchies} {t : EffectTable}

def Reads (v : Visit) (id : RoutineId) : Prop :=
  ∃ site ∈ v.2.edges, ∃ category, site.subject? category = some id

theorem readsCalls {g : CallGraph} (distinct : g.declarationOrder.Nodup) {v : Visit} {id : RoutineId}
    (entry : g.sites? v.1 = some v.2) (listed : id ∈ g.declarationOrder) (reads : Reads v id) :
    g.Calls v.1 id := by
  obtain ⟨site, member, _, subject⟩ := reads
  obtain ⟨there, name⟩ := (CallGraph.sitesOfName distinct).mp entry
  exact ⟨listed, v.2, there, name, site, member, Site.Edge.subjectTarget subject⟩

theorem referenceSame {s : EffectTable} {id : RoutineId} (same : s.get? id = t.get? id)
    (category : Category) : s.referenceSet id category = t.referenceSet id category := by
  unfold EffectTable.referenceSet
  rw [same]

theorem visitElsewhere {v : Visit} {id : RoutineId} (other : id ≠ v.1) :
    (visit h t v).1.get? id = t.get? id := by
  rw [visitTable, EffectTable.getModify, if_neg other]

theorem passElsewhere {visits : List Visit} {id : RoutineId} (other : ∀ v ∈ visits, id ≠ v.1) :
    (pass h t visits).1.get? id = t.get? id := by
  apply passInvariant (P := fun s => s.get? id = t.get? id)
  · intro s v member same
    exact (visitElsewhere (other v member)).trans same
  · rfl

theorem absorbFlag (e : CategoryEffects) (computed : EffectSet) :
    (e.absorb computed).declared = e.declared := by
  rcases CategoryEffects.absorbCases e computed with ⟨_, same⟩ | grown
  · rw [same]
  · rw [grown]
    rfl

theorem absorbFinal {e : CategoryEffects} (declared : e.declared = true) (computed : EffectSet) :
    (e.absorb computed).resolved = e.resolved := by
  rcases CategoryEffects.absorbCases e computed with ⟨_, same⟩ | grown
  · rw [same]
  · rw [grown]
    simp [CategoryEffects.withInferred, declared]

theorem ownReference (settled : t.Settled) (v : Visit) (category : Category) :
    (visit h t v).1.referenceSet v.1 category = t.referenceSet v.1 category ∨
      (visit h t v).1.referenceSet v.1 category = (visit h t v).1.inferred v.1 category := by
  have entry : (visit h t v).1.get? v.1 = (t.get? v.1).map (absorbed h t v) := by
    rw [visitTable, EffectTable.getModify, if_pos rfl]
  unfold EffectTable.referenceSet EffectTable.inferred
  rw [entry]
  cases found : t.get? v.1 with
  | none => exact .inl rfl
  | some e =>
    have dispatch : (absorbed h t v e).dispatched = e.dispatched := rfl
    simp only [Option.map_some, RoutineEffects.referenceSet, dispatch, absorbedGet, absorbFlag]
    cases declared : (e.get category).declared with
    | true => exact .inl (by simp [absorbFinal declared])
    | false =>
      cases e.dispatched with
      | true => exact .inl rfl
      | false =>
        right
        exact CategoryEffects.absorbSettled (settled v.1 e found category) _ (by rwa [absorbFlag])

/- A routine that calls itself gains nothing from a second look: what it reads of itself is what it
has. -/
theorem visitTwice (settled : t.Settled) (v : Visit) : (visit h (visit h t v).1 v).2 = false := by
  rw [visitQuiet]
  intro category
  rw [EffectSet.leHolds]
  intro x accumulated
  obtain ⟨y, delivered, yields⟩ := Contribution.accumulateHolds.mp accumulated
  -- what a site delivered on the old table, the visit has joined
  have before (old : Contribution.Delivers h t v.2 category .all y) :
      ((visit h t v).1.inferred v.1 category).Holds x :=
    EffectSet.leHolds.mp (visitCovers t v category) x (Contribution.accumulateHolds.mpr ⟨y, old, yields⟩)
  cases delivered with
  | raise site raises listed admitted held escapes =>
    exact before (.raise site raises listed admitted held escapes)
  | edge site listed admitted held escapes =>
    cases subject : site.subject? category with
    | none =>
      rw [Contribution.ofEdgeFree subject _ t] at held
      exact before (.edge site listed admitted held escapes)
    | some id =>
      rw [Contribution.ofEdgeSubject subject] at held
      have unchanged (same : (visit h t v).1.referenceSet id category = t.referenceSet id category) :
          ((visit h t v).1.inferred v.1 category).Holds x := by
        rw [same, ← Contribution.ofEdgeSubject (h := h) subject] at held
        exact before (.edge site listed admitted held escapes)
      by_cases own : id = v.1
      · subst own
        rcases ownReference (h := h) settled v category with same | inferred
        · exact unchanged same
        · rw [inferred] at held
          rcases yields with rfl | rfl
          · exact EffectSet.holdsOfAnything held x
          · exact held
      · exact unchanged (referenceSame (visitElsewhere own) category)

/- Later visits change neither a routine nor anything it reads, so its rule holds from its own visit to
the end of the pass. -/
theorem passOnce (settled : t.Settled) {visits : List Visit}
    (ordered : visits.Pairwise fun v later => v.1 ≠ later.1 ∧ ¬Reads v later.1) :
    Quiet h visits (pass h t visits).1 := by
  induction visits generalizing t with
  | nil => simp [Quiet]
  | cons v rest ih =>
    obtain ⟨first, onward⟩ := List.pairwise_cons.mp ordered
    have split : (pass h t (v :: rest)).1 = (pass h (visit h t v).1 rest).1 := rfl
    rw [split]
    intro w member
    rcases List.mem_cons.mp member with rfl | later
    · have own := passElsewhere (h := h) (t := (visit h t w).1) fun x listed => (first x listed).1
      rw [visitQuiet]
      intro category
      have rule := visitQuiet.mp (visitTwice (h := h) settled w) category
      unfold EffectTable.inferred at rule ⊢
      rw [own]
      refine (Contribution.accumulateLeAt ?_).trans rule
      intro site listed id subject
      refine le_of_eq (referenceSame (passElsewhere ?_) category)
      intro x there same
      exact (first x there).2 ⟨site, listed, category, same ▸ subject⟩
    · exact ih (visitSettled settled v) onward w later

variable {i : Setting}

theorem visitsOrdered (built : CallGraph.ofProgram i.program i.hierarchies = .ok i.graph)
    (order : i.config.visitOrder = .calleesFirst)
    (alone : ∀ component ∈ i.graph.components, component.length = 1) :
    (runVisits i).Pairwise fun v later => v.1 ≠ later.1 ∧ ¬Reads v later.1 := by
  have distinct := CallGraph.builtDistinct built
  have callees : (visitOrder i (seed i)).Pairwise fun caller later =>
      caller ≠ later ∧ ¬i.graph.Calls caller later := by
    unfold visitOrder
    rw [order]
    exact (CallGraph.aloneOrder distinct alone).filter _
  unfold runVisits visits
  rw [List.pairwise_filterMap]
  refine callees.imp ?_
  intro caller later apart v walked w following
  obtain ⟨sites, entry, rfl⟩ := Option.map_eq_some_iff.mp walked
  obtain ⟨others, found, rfl⟩ := Option.map_eq_some_iff.mp following
  refine ⟨apart.1, ?_⟩
  intro reads
  obtain ⟨there, rfl⟩ := (CallGraph.sitesOfName distinct).mp found
  exact apart.2 (readsCalls distinct entry (List.mem_map_of_mem there) reads)

theorem passesAfterOne {visits : List Visit} {bound fuel : Nat}
    (calm : Quiet h visits (pass h t visits).1) (early : 1 < bound) (enough : 1 < fuel) :
    let p := passes h visits bound fuel { table := t }
    p.table = (pass h t visits).1 ∧ p.snapshots.getLast? = some (pass h t visits).1 ∧
      p.snapshots.length ≤ 2 ∧ p.widened = 0 ∧ p.converged = true := by
  obtain ⟨fuel, rfl⟩ := Nat.exists_eq_add_of_le' enough
  by_cases quiet : Quiet h visits t
  · rw [passesEnd (p := { table := t }) quiet, passSame quiet]
    simp
  · have step : (advance h visits bound { table := t }).table = (pass h t visits).1 ∧
        (advance h visits bound { table := t }).widened = 0 := advanceEarly (p := { table := t }) early
    rw [passesAdvance (p := { table := t }) quiet, passesEnd (by rw [step.1]; exact calm),
      advanceSnapshots, step.1, step.2]
    simp

theorem roomForTwo {c : Config} (room : c.maxPasses = 0 ∨ 2 ≤ c.maxPasses) (routines height : Nat) :
    1 < c.passBound routines height := by
  unfold Config.passBound
  rcases room with auto | large
  · have product : 1 ≤ max routines 1 * max height 1 := Nat.mul_pos (by omega) (by omega)
    have limit : 1 < Config.countLimit := by decide
    rw [if_neg (by omega)]
    omega
  · rw [if_pos (by omega)]
    omega

theorem calleesFirstOnePass (built : CallGraph.ofProgram i.program i.hierarchies = .ok i.graph)
    (order : i.config.visitOrder = .calleesFirst)
    (alone : ∀ component ∈ i.graph.components, component.length = 1)
    (room : i.config.maxPasses = 0 ∨ 2 ≤ i.config.maxPasses) :
    (run i).metrics.passes ≤ 2 ∧ (run i).metrics.converged = true ∧ (run i).metrics.widened = 0 ∧
      (run i).snapshots.head? = some (run i).table := by
  have early := roomForTwo room (visitOrder i (seed i)).length i.hierarchies.latticeHeight
  obtain ⟨table, first, short, widened, converged⟩ :=
    passesAfterOne (passOnce (h := i.hierarchies) (seedSettled built) (visitsOrdered built order alone))
      early (Nat.lt_of_lt_of_le early (Nat.le_add_right _ (visitOrder i (seed i)).length))
  refine ⟨short, converged, widened, ?_⟩
  change List.head? (List.reverse _) = some _
  rw [List.head?_reverse]
  exact first.trans (congrArg some table.symm)

/- `walk` calls itself and shelters from what `open` raises on the way down. `main`, declared before
them, reaches `walk` through a local. -/
def crawl : Program :=
  { unit := "crawl"
    routines := [
      { id := "main"
        body := some [
          .define "step" none (some (.routine "walk")) .zero,
          .protect [.expr (.call (.binding "step") [] .zero)] [.mk ["Timeout"] []] none] },
      { id := "walk"
        body := some [
          .protect [.expr (.call (.routine "open") [] .zero), .expr (.call (.routine "walk") [] .zero)]
            [.mk ["KeyError"] []] none,
          .raise (some "Timeout") [] .zero] },
      { id := "open"
        origin := .foreign
        effects := { raises := some ["IOError", "KeyError"], tags := some ["ReadIOEffect"] } }] }

def crawlSetting : Setting :=
  { program := crawl
    graph := (CallGraph.ofProgram crawl .builtin).toOption.getD ⟨[]⟩
    hierarchies := .builtin
    config := .ofPreset .standard }

theorem crawlOnePass :
    crawlSetting.graph.components = [["open"], ["walk"], ["main"]] ∧
      (run { crawlSetting with config := .ofPreset .permissive }).metrics.passes = 3 ∧
      (run crawlSetting).table.inferred "walk" .raises = .known (.ofList ["IOError", "Timeout"]) ∧
      (run crawlSetting).metrics.passes ≤ 2 ∧ (run crawlSetting).metrics.converged = true ∧
      (run crawlSetting).metrics.widened = 0 ∧
      (run crawlSetting).snapshots.head? = some (run crawlSetting).table :=
  ⟨by decide +kernel, by decide +kernel, by decide +kernel,
    calleesFirstOnePass (i := crawlSetting) (by decide +kernel) rfl (by decide +kernel) (.inl rfl)⟩

end Inference
end EffectAudit
