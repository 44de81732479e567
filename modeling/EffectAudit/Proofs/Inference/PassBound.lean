import EffectAudit.Proofs.Inference.Chains
/-! How many passes a run needs. After as many passes as there are bodies every chain has been
followed to its end, so the next pass is quiet, whatever the visit order and however many kinds the
unit makes up. The derived bound leaves room for that pass. -/
namespace EffectAudit.Inference

variable {i : Setting}

def afterPasses (h : Hierarchies) (visits : List Visit) (count : Nat) (t : EffectTable) :
    EffectTable :=
  (fun t => (pass h t visits).1)^[count] t

theorem afterPassesInvariant {h : Hierarchies} {P : EffectTable → Prop} {visits : List Visit}
    {t : EffectTable} (step : ∀ t, ∀ v ∈ visits, P t → P (visit h t v).1) (start : P t)
    (count : Nat) : P (afterPasses h visits count t) := by
  induction count with
  | zero => exact start
  | succ count ih =>
    rw [afterPasses, Function.iterate_succ_apply']
    exact passInvariant step ih

theorem passesWithin {h : Hierarchies} {visits : List Visit} {bound fuel count : Nat} {p : Progress}
    (calm : Quiet h visits (afterPasses h visits count p.table))
    (early : p.snapshots.length + count < bound) (enough : count < fuel) (none : p.widened = 0) :
    (passes h visits bound fuel p).snapshots.length ≤ p.snapshots.length + count + 1 ∧
      (passes h visits bound fuel p).widened = 0 ∧
      (passes h visits bound fuel p).converged = true := by
  induction fuel generalizing p count with
  | zero => omega
  | succ fuel ih =>
    by_cases quiet : Quiet h visits p.table
    · rw [passesEnd quiet]
      refine ⟨?_, none, by simp [none]⟩
      rw [List.length_cons]
      omega
    · cases count with
      | zero => exact absurd calm quiet
      | succ count =>
        rw [passesAdvance quiet]
        have ⟨table, widened⟩ : (advance h visits bound p).table = (pass h p.table visits).1 ∧
            (advance h visits bound p).widened = p.widened := advanceEarly (by omega)
        have length := congrArg List.length (advanceSnapshots (h := h) visits bound p)
        rw [List.length_cons] at length
        have onward : Quiet h visits (afterPasses h visits count (advance h visits bound p).table) := by
          rw [table]
          exact calm
        have rest := ih onward (by omega) (by omega) (widened.trans none)
        rw [length] at rest
        exact ⟨by omega, rest.2⟩

theorem afterPassesComplete (built : CallGraph.ofProgram i.program i.hierarchies = .ok i.graph)
    (count : Nat) : Complete i count (afterPasses i.hierarchies (runVisits i) count (seed i)) := by
  induction count with
  | zero => exact fun _ _ _ chain => chain.elim
  | succ count ih =>
    have shape : Shaped i (afterPasses i.hierarchies (runVisits i) count (seed i)) :=
      afterPassesInvariant (P := Shaped i) (fun t v member shape =>
        visitShaped shape fun r listed name => visitedBody built member listed name)
        (seedShaped (CallGraph.ofProgramOk.mp built).1) count
    rw [afterPasses, Function.iterate_succ_apply']
    exact passComplete built shape ih

theorem afterBodiesQuiet (built : CallGraph.ofProgram i.program i.hierarchies = .ok i.graph) :
    Quiet i.hierarchies (runVisits i)
      (afterPasses i.hierarchies (runVisits i) i.program.bodyCount (seed i)) := by
  have both : Shaped i (afterPasses i.hierarchies (runVisits i) i.program.bodyCount (seed i)) ∧
      Sound i (afterPasses i.hierarchies (runVisits i) i.program.bodyCount (seed i)) := by
    apply afterPassesInvariant (P := fun t => Shaped i t ∧ Sound i t)
    · rintro t v member ⟨shape, sound⟩
      exact ⟨visitShaped shape fun r listed name => visitedBody built member listed name,
        visitSound built shape sound member⟩
    · exact ⟨seedShaped (CallGraph.ofProgramOk.mp built).1, seedSound built⟩
  exact completeQuiet built both.1 both.2 (afterPassesComplete built _)

theorem bodiesOrdered (built : CallGraph.ofProgram i.program i.hierarchies = .ok i.graph) :
    i.program.bodyCount ≤ (visitOrder i (seed i)).length := by
  have distinct := (CallGraph.ofProgramOk.mp built).1
  have names : ((i.program.routines.filter (·.hasBody)).map (·.id)).Nodup :=
    distinct.sublist (List.filter_sublist.map _)
  have within : ∀ id ∈ (i.program.routines.filter (·.hasBody)).map (·.id),
      id ∈ visitOrder i (seed i) := by
    intro id member
    obtain ⟨r, kept, rfl⟩ := List.mem_map.mp member
    obtain ⟨listed, body⟩ := List.mem_filter.mp kept
    obtain ⟨sites, found, _⟩ := CallGraph.sitesOfRoutine built listed
    have visit := (visited built (v := (r.id, sites))).mpr ⟨r, listed, rfl, body, found⟩
    obtain ⟨id, inside, pair⟩ := List.mem_filterMap.mp visit
    obtain ⟨_, _, equal⟩ := Option.map_eq_some_iff.mp pair
    cases equal
    exact inside
  have short := (names.subperm within).length_le
  rwa [List.length_map, ← List.countP_eq_length_filter] at short

theorem derivedBoundRoom {c : Config} {bodies routines height : Nat} (auto : c.maxPasses = 0)
    (fits : bodies < Config.countLimit) (le : bodies ≤ routines) :
    bodies < c.passBound routines height := by
  have product : bodies ≤ max routines 1 * max height 1 :=
    le.trans ((le_max_left _ _).trans (Nat.le_mul_of_pos_right _ (by omega)))
  unfold Config.passBound
  rw [if_neg (by omega)]
  omega

theorem runStops (built : CallGraph.ofProgram i.program i.hierarchies = .ok i.graph)
    (room : i.program.bodyCount <
      i.config.passBound (visitOrder i (seed i)).length i.hierarchies.latticeHeight) :
    (run i).metrics.passes ≤ i.program.bodyCount + 1 ∧ (run i).metrics.widened = 0 ∧
      (run i).metrics.converged = true := by
  have first : ({ table := seed i } : Progress).snapshots.length = 0 := rfl
  have whole := passesWithin (p := { table := seed i }) (afterBodiesQuiet built)
    (by rw [first, Nat.zero_add]; exact room)
    (Nat.lt_of_lt_of_le room (Nat.le_add_right _ (visitOrder i (seed i)).length)) rfl
  rw [first, Nat.zero_add] at whole
  exact whole

theorem derivedBoundConverges (built : CallGraph.ofProgram i.program i.hierarchies = .ok i.graph)
    (auto : i.config.maxPasses = 0) (fits : i.program.bodyCount < Config.countLimit) :
    (run i).metrics.converged = true :=
  (runStops built (derivedBoundRoom auto fits (bodiesOrdered built))).2.2

theorem derivedBoundNeverHit (built : CallGraph.ofProgram i.program i.hierarchies = .ok i.graph)
    (room : i.config.maxPasses = 0 ∧ i.program.bodyCount < Config.countLimit ∨
      i.program.bodyCount + 1 ≤ i.config.maxPasses) :
    (run i).metrics.passes ≤ i.program.bodyCount + 1 ∧ (run i).metrics.widened = 0 ∧
      (run i).metrics.converged = true := by
  apply runStops built
  rcases room with ⟨auto, fits⟩ | large
  · exact derivedBoundRoom auto fits (bodiesOrdered built)
  · unfold Config.passBound
    rw [if_pos (by omega)]
    omega

theorem retryLoopWithinBound :
    retrySetting.config.maxPasses = 0 ∧ retryLoop.bodyCount = 2 ∧
      (run retrySetting).metrics.passes ≤ retryLoop.bodyCount + 1 ∧
      (run retrySetting).metrics.widened = 0 ∧ (run retrySetting).metrics.converged = true :=
  ⟨rfl, by decide, derivedBoundNeverHit (i := retrySetting) (by decide +kernel)
    (.inl ⟨rfl, by decide⟩)⟩

end EffectAudit.Inference
