import EffectAudit.Proofs.Inference.LeastSolution
/-! What a run computes for some of the routines depends on those routines and on what references to
the others stand for. Two runs that start alike on a set of names, visit the same sites there and see
the same of the routines outside end alike on the set. -/
namespace EffectAudit.Inference

/- Two runs as seen from the names `inside`. Of a routine outside only what a reference to it stands
for is ever read, and only if a site inside leads to it. -/
structure SameWithin (inside : RoutineId → Prop) (i j : Setting) : Prop where
  hierarchies : i.hierarchies = j.hierarchies
  start : ∀ id, inside id → (seed i).get? id = (seed j).get? id
  sites : ∀ id, inside id → i.graph.sites? id = j.graph.sites? id
  outside : ∀ id, inside id → ∀ sites, i.graph.sites? id = some sites → ∀ site ∈ sites.edges,
    ∀ category callee, site.subject? category = some callee → ¬inside callee →
      (run i).table.referenceSet callee category = (run j).table.referenceSet callee category

variable {inside : RoutineId → Prop} {i j : Setting}

theorem sameWithinSymm (same : SameWithin inside i j) : SameWithin inside j i where
  hierarchies := same.hierarchies.symm
  start id within := (same.start id within).symm
  sites id within := (same.sites id within).symm
  outside id within sites found site listed category callee subject out :=
    (same.outside id within sites ((same.sites id within).trans found) site listed category callee
      subject out).symm

variable (built : CallGraph.ofProgram i.program i.hierarchies = .ok i.graph)
  (built' : CallGraph.ofProgram j.program j.hierarchies = .ok j.graph)
include built built'

theorem visitedWithin (same : SameWithin inside i j) {v : Visit} (member : v ∈ runVisits i)
    (within : inside v.1) : v ∈ runVisits j := by
  obtain ⟨r, listed, name, body, found⟩ := (visited built).mp member
  have shape := seedShaped (i := i) (CallGraph.ofProgramOk.mp built).1
  have shape' := seedShaped (i := j) (CallGraph.ofProgramOk.mp built').1
  obtain ⟨e, entry, known⟩ := shape.entry r listed
  rw [name, same.start v.1 within] at entry
  obtain ⟨r', listed', name', known'⟩ := shape'.only v.1 e entry
  refine (visited built').mpr ⟨r', listed', name', ?_, (same.sites v.1 within).symm.trans found⟩
  rw [← known'.analyzed, known.analyzed, body]

theorem convergedLeOn (same : SameWithin inside i j) (done : (run i).metrics.converged = true)
    {id : RoutineId} (within : inside id) :
    Option.Rel (· ≤ ·) ((run i).table.get? id) ((run j).table.get? id) := by
  have settled := shapedSettled (runShaped built)
  have settled' := shapedSettled (runShaped built')
  -- the run stays below its own end, so what it reads of a routine outside is no more than at the end
  have both : (run i).table ≤ (run i).table ∧ ∀ id, inside id →
      Option.Rel (· ≤ ·) ((run i).table.get? id) ((run j).table.get? id) := by
    apply convergedInvariant (P := fun s => s ≤ (run i).table ∧ ∀ id, inside id →
      Option.Rel (· ≤ ·) (s.get? id) ((run j).table.get? id)) (seedSettled built) rfl done
    · rintro s v member ⟨small, below⟩
      refine ⟨visitLe small settled (quietRule (runQuiet built) member), ?_⟩
      intro id within
      apply visitLeAt (below id within) settled'
      rintro rfl category
      obtain ⟨_, _, _, _, found⟩ := (visited built).mp member
      have rule := quietRule (runQuiet built') (visitedWithin built built' same member within) category
      rw [← same.hierarchies] at rule
      refine (Contribution.accumulateLeAt ?_).trans rule
      intro site listed callee subject
      by_cases mine : inside callee
      · exact EffectTable.referenceSetLeAt (below callee mine) category
      · rw [← same.outside v.1 within v.2 found site listed category callee subject mine]
        exact EffectTable.referenceSetLe small callee category
    · refine ⟨seedLeRun built, ?_⟩
      intro id within
      rw [same.start id within]
      exact seedLeRun built' id
  exact both.2 id within

theorem runsAgreeWithin (same : SameWithin inside i j) (done : (run i).metrics.converged = true)
    (done' : (run j).metrics.converged = true) {id : RoutineId} (within : inside id) :
    (run i).table.get? id = (run j).table.get? id :=
  EffectTable.entryAntisymm (convergedLeOn built built' same done within)
    (convergedLeOn built' built (sameWithinSymm same) done' within)

end EffectAudit.Inference
