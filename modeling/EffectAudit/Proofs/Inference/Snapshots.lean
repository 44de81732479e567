import EffectAudit.Proofs.Inference.Normal
import EffectAudit.Proofs.Published
/-! Every table that a run goes through: the start table, the one after each pass, and the last. A visit
and a widening keep what the start table has and make no set smaller, so all of them have one entry for
each routine, with the sets in normal form, and each lies above those before it. -/
namespace EffectAudit

theorem NameMap.memKeysIff {β : Type} {m : NameMap β} {name : String} :
    name ∈ m.keys ↔ ∃ value, m.get? name = some value := by
  constructor
  · intro member
    obtain ⟨⟨key, value⟩, inside, same⟩ := List.mem_map.mp member
    subst same
    exact ⟨value, NameMap.findOfMem m.sorted inside⟩
  · intro given
    obtain ⟨value, found⟩ := given
    exact NameMap.memKeys found

theorem NameMap.keysDistinct {β : Type} (m : NameMap β) : m.keys.Nodup :=
  List.pairwise_map.mpr (m.sorted.imp fun below => String.ne_of_lt below)

namespace Inference

variable {h : Hierarchies} {i : Setting}

/- The tables met so far, latest first, down to the one before all passes: each has the property, and
none is smaller than an earlier one. -/
structure Trail (P : EffectTable → Prop) (first : EffectTable) (p : Progress) : Prop where
  kept : ∀ t ∈ p.table :: p.snapshots ++ [first], P t
  growing : (p.table :: p.snapshots ++ [first]).Pairwise (· ≥ ·)

theorem trailStart {P : EffectTable → Prop} {first : EffectTable} (start : P first) :
    Trail P first { table := first } where
  kept := by simpa using start
  growing := by simp

theorem trailPush {P : EffectTable → Prop} {first : EffectTable} {p q : Progress} {after : EffectTable}
    (trail : Trail P first p) (listed : q.snapshots = after :: p.snapshots) (passed : P after)
    (reached : P q.table) (grown : p.table ≤ after) (widened : after ≤ q.table) :
    Trail P first q := by
  have older := List.pairwise_cons.mp trail.growing
  have below : ∀ t ∈ p.snapshots ++ [first], t ≤ after := fun t member => (older.1 t member).trans grown
  constructor
  · rw [listed]
    intro t member
    rcases List.mem_cons.mp member with rfl | member
    · exact reached
    · rcases List.mem_cons.mp member with rfl | member
      · exact passed
      · exact trail.kept t (List.mem_cons_of_mem _ member)
  · rw [listed]
    refine List.pairwise_cons.mpr ⟨?_, List.pairwise_cons.mpr ⟨below, older.2⟩⟩
    intro t member
    rcases List.mem_cons.mp member with rfl | member
    · exact widened
    · exact (below t member).trans widened

theorem trailPasses {P : EffectTable → Prop} {first : EffectTable} {visits : List Visit} {p : Progress}
    (bound fuel : Nat) (settled : p.table.Settled)
    (step : ∀ t, ∀ v ∈ visits, P t → P (visit h t v).1)
    (widens : ∀ t, ∀ v ∈ visits, P t → P (t.modify v.1 (·.widen))) (trail : Trail P first p) :
    Trail P first (passes h visits bound fuel p) := by
  induction fuel generalizing p with
  | zero => exact trail
  | succ fuel ih =>
    have start : P p.table := trail.kept _ (List.mem_cons_self ..)
    by_cases quiet : Quiet h visits p.table
    · rw [passesEnd quiet]
      exact trailPush trail rfl start start le_rfl le_rfl
    · rw [passesAdvance quiet]
      apply ih (advanceSettled bound settled)
      exact trailPush trail (advanceSnapshots visits bound p) (passInvariant step start)
        (advanceInvariant bound settled step widens start) (lePass settled visits)
        (leAdvance bound settled)

def tables (i : Setting) : List EffectTable := seed i :: (run i).snapshots ++ [(run i).table]

theorem tablesTrail {P : EffectTable → Prop} (settled : (seed i).Settled)
    (step : ∀ t, ∀ v ∈ runVisits i, P t → P (visit i.hierarchies t v).1)
    (widens : ∀ t, ∀ v ∈ runVisits i, P t → P (t.modify v.1 (·.widen))) (start : P (seed i)) :
    (∀ t ∈ tables i, P t) ∧ (tables i).Pairwise (· ≤ ·) := by
  let bound := i.config.passBound (visitOrder i (seed i)).length i.hierarchies.latticeHeight
  have trail : Trail P (seed i) (passes i.hierarchies (runVisits i) bound
      (bound + (visitOrder i (seed i)).length) { table := seed i }) :=
    trailPasses _ _ settled step widens (trailStart start)
  have order : tables i = ((run i).table :: (run i).snapshots.reverse ++ [seed i]).reverse := by
    simp [tables]
  have same : (run i).snapshots.reverse = (passes i.hierarchies (runVisits i) bound
      (bound + (visitOrder i (seed i)).length) { table := seed i }).snapshots := List.reverse_reverse _
  rw [order, same]
  refine ⟨fun t member => trail.kept t (List.mem_reverse.mp member), ?_⟩
  exact List.pairwise_reverse.mpr trail.growing

structure Reliable (i : Setting) (t : EffectTable) : Prop where
  entries : t.routines.keys.Perm (i.program.routines.map (·.id))
  named : ∀ id e, t.get? id = some e → e.routine = id
  bodiless : ∀ r ∈ i.program.routines, r.hasBody = false → t.get? r.id = (seed i).get? r.id
  declared : ∀ r ∈ i.program.routines, ∀ category kinds, r.declared category = some kinds →
    t.resolved r.id category = .ofKinds (i.hierarchies.get category) kinds
  undeclared : ∀ r ∈ i.program.routines, ∀ category, r.declared category = none →
    t.resolved r.id category = t.inferred r.id category
  clean : ∀ id e, t.get? id = some e → ∀ category kinds,
    (e.get category).resolved = .known kinds ∨ (e.get category).inferred = .known kinds →
      ∀ kind ∈ kinds, kind ≠ (i.hierarchies.get category).root ∧
        (i.hierarchies.get category).isTracked kind = true

theorem reliable (distinct : (i.program.routines.map (·.id)).Nodup) {t : EffectTable}
    (shape : Shaped i t) (normal : t.Normal i.hierarchies) : Reliable i t where
  entries := by
    rw [List.perm_ext_iff_of_nodup (NameMap.keysDistinct _) distinct]
    intro id
    rw [NameMap.memKeysIff, List.mem_map]
    constructor
    · intro given
      obtain ⟨e, found⟩ := given
      obtain ⟨r, listed, name, _⟩ := shape.only id e found
      exact ⟨r, listed, name⟩
    · intro given
      obtain ⟨r, listed, name⟩ := given
      obtain ⟨e, found, _⟩ := shape.entry r listed
      exact ⟨e, name ▸ found⟩
  named id e found := by
    obtain ⟨r, _, name, entry⟩ := shape.only id e found
    exact entry.routine.trans name
  bodiless r listed absent := by
    obtain ⟨e, found, entry⟩ := shape.entry r listed
    have raises : e.raises = seedCategory i r .raises := (entry.category .raises).bodiless absent
    have tags : e.tags = seedCategory i r .tags := (entry.category .tags).bodiless absent
    have first : (seed i).get? r.id = some (seedRoutine i r) := by
      rw [seedGet distinct, (routineFound distinct).mpr ⟨listed, rfl⟩]
      rfl
    rw [found, first]
    unfold seedRoutine
    rw [← raises, ← tags, ← entry.routine, ← entry.analyzed, ← entry.dispatched]
  declared r listed category kinds given := by
    obtain ⟨e, found, entry⟩ := shape.entry r listed
    simp only [EffectTable.resolved, found]
    exact (entry.category category).final kinds given
  undeclared r listed category free := by
    obtain ⟨e, found, entry⟩ := shape.entry r listed
    simp only [EffectTable.resolved, EffectTable.inferred, found]
    exact (entry.category category).settled free
  clean id e found category kinds one kind member := by
    have members {set : EffectSet} (normal : set.Normal (i.hierarchies.get category))
        (known : set = .known kinds) : kind ≠ (i.hierarchies.get category).root ∧
          (i.hierarchies.get category).isTracked kind = true := by
      subst known
      rcases normal with top | members
      · contradiction
      · exact (members kind member).symm
    obtain ⟨resolved, inferred⟩ := normal id e found category
    rcases one with known | known
    · exact members resolved known
    · exact members inferred known

theorem everyTableReliable (built : CallGraph.ofProgram i.program i.hierarchies = .ok i.graph) :
    (∀ t ∈ tables i, Reliable i t) ∧ (tables i).Pairwise (· ≤ ·) := by
  have distinct := (CallGraph.ofProgramOk.mp built).1
  obtain ⟨kept, growing⟩ := tablesTrail (P := fun t => Shaped i t ∧ t.Normal i.hierarchies)
    (seedSettled built)
    (by
      intro t v member kept
      obtain ⟨shape, normal⟩ := kept
      exact ⟨visitShaped shape fun r listed name => visitedBody built member listed name,
        visitNormal normal v⟩)
    (by
      intro t v member kept
      obtain ⟨shape, normal⟩ := kept
      exact ⟨modifyWidenShaped shape fun r listed name => visitedBody built member listed name,
        widenNormal normal v.1⟩)
    ⟨seedShaped distinct, seedNormal built⟩
  exact ⟨fun t member => reliable distinct (kept t member).1 (kept t member).2, growing⟩

theorem retryLoopTables :
    (tables { retrySetting with config := { Config.ofPreset .permissive with maxPasses := 1 } }).map
        (·.inferred "retry" .raises) =
      [∅, .known (.ofList ["IOError", "Timeout"]), .unknown, .unknown] ∧
    (∀ t ∈ tables { retrySetting with config := { Config.ofPreset .permissive with maxPasses := 1 } },
      Reliable { retrySetting with config := { Config.ofPreset .permissive with maxPasses := 1 } } t) ∧
    (tables { retrySetting with config := { Config.ofPreset .permissive with maxPasses := 1 } }).Pairwise
      (· ≤ ·) :=
  ⟨by decide +kernel, everyTableReliable (by decide +kernel)⟩

end Inference
end EffectAudit
