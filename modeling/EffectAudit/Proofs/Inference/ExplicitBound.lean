import EffectAudit.Proofs.Inference.PassBound
/-! Runs under an explicit pass bound. From the bound on, what still grows is set to unknown, and a
routine that is unknown in both categories never grows again. So the passes come to an end, and no more
routines are set to unknown than there are bodies. Wherever the bound cut in, the last table satisfies
every rule and therefore lies above the least one. -/
namespace EffectAudit.Inference

variable {h : Hierarchies} {i : Setting}

theorem widenOneOpen {visits : List Visit} {t : EffectTable} (settled : t.Settled) {id : RoutineId}
    (member : id ∈ visits.map (·.1)) (count : Nat) :
    (widenOne (t, count) id).2 + openCount visits (t.modify id (·.widen)) ≤
      count + openCount visits t := by
  have below : t ≤ t.modify id (·.widen) :=
    EffectTable.leModify fun e found => leWiden (settled id e found)
  have fewer := openCountLe below visits
  unfold widenOne
  cases found : t.get? id with
  | none => simpa [found] using fewer
  | some e =>
    dsimp only
    cases unknown : e.isUnknown with
    | true => simpa using fewer
    | false =>
      obtain ⟨v, listed, rfl⟩ := List.mem_map.mp member
      have less : openCount visits (t.modify v.1 (·.widen)) < openCount visits t := by
        apply openCountLt below listed
        · simp [found, unknown]
        · simp [EffectTable.getModify, found, widenUnknown]
      simp only [Bool.false_eq_true, if_false]
      omega

theorem foldWidenOpen {visits : List Visit} {grown : List RoutineId}
    (within : ∀ id ∈ grown, id ∈ visits.map (·.1)) {t : EffectTable} (settled : t.Settled)
    (count : Nat) :
    (grown.foldl widenOne (t, count)).2 + openCount visits (widenAll t grown) ≤
      count + openCount visits t := by
  induction grown generalizing t count with
  | nil => exact le_rfl
  | cons id rest ih =>
    have first := widenOneOpen settled (within id (List.mem_cons_self ..)) count
    have others := ih (fun later member => within later (List.mem_cons_of_mem _ member))
      (modifyWidenSettled settled id) (widenOne (t, count) id).2
    have step : widenOne (t, count) id = (t.modify id (·.widen), (widenOne (t, count) id).2) :=
      Prod.ext (widenOneTable _ _) rfl
    rw [List.foldl_cons, step]
    change _ + openCount visits (widenAll (t.modify id (·.widen)) rest) ≤ _
    omega

theorem advanceOpen {visits : List Visit} {p : Progress} (bound : Nat) (settled : p.table.Settled) :
    (advance h visits bound p).widened + openCount visits (advance h visits bound p).table ≤
      p.widened + openCount visits p.table := by
  have fewer := openCountLe (lePass (h := h) settled visits) visits
  unfold advance
  dsimp only
  split
  · have within : ∀ id ∈ (pass h p.table visits).2, id ∈ visits.map (·.1) :=
      fun id grown => (grownOpen settled grown).1
    have counted := foldWidenOpen within (passSettled (h := h) settled visits) 0
    dsimp only
    rw [widenTable, widenFold]
    omega
  · dsimp only
    omega

theorem passesOpen {visits : List Visit} (bound fuel : Nat) {p : Progress}
    (settled : p.table.Settled) :
    (passes h visits bound fuel p).widened ≤ p.widened + openCount visits p.table := by
  induction fuel generalizing p with
  | zero => exact Nat.le_add_right _ _
  | succ fuel ih =>
    by_cases quiet : Quiet h visits p.table
    · rw [passesEnd quiet]
      exact Nat.le_add_right _ _
    · rw [passesAdvance quiet]
      exact (ih (advanceSettled bound settled)).trans (advanceOpen bound settled)

/- The passes up to the bound are counted by the bound; every one from there on closes a routine for
good. -/
theorem passesLength {visits : List Visit} (bound fuel : Nat) {p : Progress}
    (settled : p.table.Settled) :
    (passes h visits bound fuel p).snapshots.length ≤
      p.snapshots.length + (bound - 1 - p.snapshots.length) + openCount visits p.table + 1 := by
  induction fuel generalizing p with
  | zero =>
    rw [passes]
    omega
  | succ fuel ih =>
    by_cases quiet : Quiet h visits p.table
    · rw [passesEnd quiet, List.length_cons]
      omega
    · have nearer := advanceNearer bound settled quiet
      have kept : (advance h visits bound p).table.Settled := advanceSettled bound settled
      have rest := ih kept
      rw [advanceSnapshots, List.length_cons] at rest
      rw [passesAdvance quiet]
      omega

theorem passesStable {visits : List Visit} {bound fuel : Nat} {p : Progress}
    (settled : p.table.Settled)
    (enough : bound - 1 - p.snapshots.length + openCount visits p.table + 1 ≤ fuel) (more : Nat) :
    passes h visits bound (fuel + more) p = passes h visits bound fuel p := by
  induction fuel generalizing p with
  | zero => omega
  | succ fuel ih =>
    rw [Nat.add_right_comm]
    by_cases quiet : Quiet h visits p.table
    · rw [passesEnd quiet, passesEnd quiet]
    · have nearer := advanceNearer bound settled quiet
      rw [passesAdvance quiet, passesAdvance quiet]
      apply ih (advanceSettled bound settled)
      rw [advanceSnapshots, List.length_cons]
      omega

theorem visitOrderDistinct (built : CallGraph.ofProgram i.program i.hierarchies = .ok i.graph)
    (t : EffectTable) : (visitOrder i t).Nodup := by
  have distinct := CallGraph.builtDistinct built
  unfold visitOrder
  dsimp only
  split
  · exact distinct.filter _
  · exact (CallGraph.orderDistinct distinct).filter _

theorem visitOrderLength (built : CallGraph.ofProgram i.program i.hierarchies = .ok i.graph) :
    (visitOrder i (seed i)).length = i.program.bodyCount := by
  apply le_antisymm _ (bodiesOrdered built)
  have within : ∀ id ∈ visitOrder i (seed i), id ∈ (i.program.routines.filter (·.hasBody)).map (·.id) := by
    intro id member
    obtain ⟨e, entry, flag⟩ := (Option.any_eq_true _ _).mp (List.mem_filter.mp member).2
    obtain ⟨r, listed, name, known⟩ :=
      (seedShaped (i := i) (CallGraph.ofProgramOk.mp built).1).only id e entry
    exact List.mem_map.mpr ⟨r, List.mem_filter.mpr ⟨listed, known.analyzed ▸ flag⟩, name⟩
  have short := ((visitOrderDistinct built (seed i)).subperm within).length_le
  rwa [List.length_map, ← List.countP_eq_length_filter] at short

def automatic (i : Setting) : Setting := { i with config := { i.config with maxPasses := 0 } }

theorem automaticSolves {t : EffectTable} (solves : Solves i t) : Solves (automatic i) t :=
  ⟨solves.aboveSeed, solves.undeclared, solves.declared, solves.rule⟩

theorem automaticLe (built : CallGraph.ofProgram i.program i.hierarchies = .ok i.graph)
    (fits : i.program.bodyCount < Config.countLimit) : (run (automatic i)).table ≤ (run i).table := by
  have done := derivedBoundConverges (i := automatic i) built rfl fits
  exact convergedLe (i := automatic i) built done (automaticSolves (runSolves built))

theorem widenDeclared {t : EffectTable} (grown : List RoutineId) {id : RoutineId} {category : Category}
    {e : RoutineEffects} (found : t.get? id = some e) (declared : (e.get category).declared = true) :
    (widen t grown).1.resolved id category = t.resolved id category := by
  have kept : ∃ e', (widenAll t grown).get? id = some e' ∧ (e'.get category).declared = true ∧
      (e'.get category).resolved = (e.get category).resolved := by
    apply widenInvariant (P := fun s => ∃ e', s.get? id = some e' ∧
      (e'.get category).declared = true ∧ (e'.get category).resolved = (e.get category).resolved)
    · rintro s other _ ⟨e', there, flag, same⟩
      rw [EffectTable.getModify]
      split
      · refine ⟨e'.widen, by rw [there]; rfl, ?_⟩
        have part : (e'.widen.get category) = (e'.get category).widen := by cases category <;> rfl
        rw [part]
        refine ⟨flag, ?_⟩
        simpa [CategoryEffects.widen, CategoryEffects.withInferred, flag] using same
      · exact ⟨e', there, flag, same⟩
    · exact ⟨e, found, declared, rfl⟩
  obtain ⟨e', there, _, same⟩ := kept
  rw [widenTable]
  simp only [EffectTable.resolved, there, found, same]

def progressWithin (i : Setting) (limit : Nat) : Progress :=
  passes i.hierarchies (runVisits i) i.config.maxPasses limit { table := seed i }

structure SoundlyBounded (i : Setting) : Prop where
  -- allowed any larger number of passes, the loop makes the same ones
  ends : ∀ limit, i.config.maxPasses + i.program.bodyCount ≤ limit →
    (progressWithin i limit).snapshots.reverse = (run i).snapshots ∧
      (progressWithin i limit).table = (run i).table
  passes : (run i).metrics.passes ≤ i.config.maxPasses + i.program.bodyCount
  widened : (run i).metrics.widened ≤ i.program.bodyCount
  rules : ∀ r ∈ i.program.routines, r.hasBody = true → ∃ sites, i.graph.sites? r.id = some sites ∧
    ∀ category, Contribution.accumulate i.hierarchies (run i).table sites category .all ≤
      (run i).table.inferred r.id category
  contains : ∀ id category,
    (run (automatic i)).table.inferred id category ≤ (run i).table.inferred id category ∧
      (run (automatic i)).table.resolved id category ≤ (run i).table.resolved id category
  declared : ∀ r ∈ i.program.routines, ∀ category kinds, r.declared category = some kinds →
    (run i).table.resolved r.id category = .ofKinds (i.hierarchies.get category) kinds ∧
      ∀ t, Shaped i t → ∀ grown, (widen t grown).1.resolved r.id category = t.resolved r.id category

section Explicit

variable (built : CallGraph.ofProgram i.program i.hierarchies = .ok i.graph)
  (explicit : 1 ≤ i.config.maxPasses)
include built

theorem fewOpen : openCount (runVisits i) (seed i) ≤ i.program.bodyCount := by
  rw [← visitOrderLength built]
  exact openCountVisits i (seed i)

theorem withinWidened (limit : Nat) : (progressWithin i limit).widened ≤ i.program.bodyCount := by
  have counted : (progressWithin i limit).widened ≤ 0 + openCount (runVisits i) (seed i) :=
    passesOpen _ _ (seedSettled built)
  rw [Nat.zero_add] at counted
  exact counted.trans (fewOpen built)

include explicit

theorem runWithin :
    (run i).snapshots = (progressWithin i (i.config.maxPasses + i.program.bodyCount)).snapshots.reverse ∧
    (run i).table = (progressWithin i (i.config.maxPasses + i.program.bodyCount)).table ∧
    (run i).metrics.passes =
      (progressWithin i (i.config.maxPasses + i.program.bodyCount)).snapshots.length ∧
    (run i).metrics.widened = (progressWithin i (i.config.maxPasses + i.program.bodyCount)).widened := by
  have bound (routines height : Nat) : i.config.passBound routines height = i.config.maxPasses :=
    if_pos explicit
  unfold run
  dsimp only
  rw [bound, visitOrderLength built]
  exact ⟨rfl, rfl, rfl, rfl⟩

theorem withinStable {limit : Nat} (large : i.config.maxPasses + i.program.bodyCount ≤ limit) :
    progressWithin i limit = progressWithin i (i.config.maxPasses + i.program.bodyCount) := by
  obtain ⟨more, rfl⟩ := Nat.exists_eq_add_of_le large
  have few := fewOpen built
  apply passesStable (seedSettled built)
  change i.config.maxPasses - 1 - 0 + openCount (runVisits i) (seed i) + 1 ≤ _
  omega

theorem withinLength (limit : Nat) :
    (progressWithin i limit).snapshots.length ≤ i.config.maxPasses + i.program.bodyCount := by
  have few := fewOpen built
  have short : (progressWithin i limit).snapshots.length ≤
      0 + (i.config.maxPasses - 1 - 0) + openCount (runVisits i) (seed i) + 1 :=
    passesLength _ _ (seedSettled built)
  omega

end Explicit

theorem explicitBoundSound (built : CallGraph.ofProgram i.program i.hierarchies = .ok i.graph)
    (explicit : 1 ≤ i.config.maxPasses) (fits : i.program.bodyCount < Config.countLimit) :
    SoundlyBounded i := by
  obtain ⟨snapshots, table, passes, widened⟩ := runWithin built explicit
  have solves := runSolves built
  have above := automaticLe built fits
  refine ⟨?_, ?_, ?_, ?_, ?_, ?_⟩
  · intro limit large
    rw [withinStable built explicit large, snapshots, table]
    exact ⟨rfl, rfl⟩
  · rw [passes]
    exact withinLength built explicit _
  · rw [widened]
    exact withinWidened built _
  · intro r listed body
    obtain ⟨sites, found, _⟩ := CallGraph.sitesOfRoutine built listed
    exact ⟨sites, found, solves.rule r listed body sites found⟩
  · intro id category
    exact ⟨EffectTable.inferredLe above id category, EffectTable.resolvedLe above id category⟩
  · intro r listed category kinds given
    refine ⟨solves.declared r listed category kinds given, ?_⟩
    intro t shape grown
    obtain ⟨e, found, entry⟩ := shape.entry r listed
    apply widenDeclared grown found
    rw [(entry.category category).declared, given]
    rfl

theorem retryLoopOnePass :
    (run { retrySetting with config := { Config.ofPreset .permissive with maxPasses := 1 } }).metrics.widened
      = 2 ∧
    SoundlyBounded { retrySetting with config := { Config.ofPreset .permissive with maxPasses := 1 } } :=
  ⟨by decide +kernel, explicitBoundSound (by decide +kernel) (by decide) (by decide)⟩

end EffectAudit.Inference
