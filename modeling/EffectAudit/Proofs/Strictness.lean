import EffectAudit.Proofs.Analysis
import EffectAudit.Proofs.Site.Legality
/-! Strictness is only a filter. Whether kinds have to be known is asked while the hierarchies and the
call graph are built; inference, the checks and the reports never ask it. -/
namespace EffectAudit

def Hierarchy.lenient (h : Hierarchy) : Hierarchy :=
  h.withOptions { h.options with strictKinds := false }

def Hierarchies.lenient (h : Hierarchies) : Hierarchies := ⟨h.raises.lenient, h.tags.lenient⟩

def Config.lenient (c : Config) : Config := { c with strictKinds := false }

namespace Hierarchy

variable (h : Hierarchy)

theorem lenientPermits (kind : Kind) : h.lenient.Permits kind := by
  intro strict
  contradiction

@[simp] theorem lenientRoot : h.lenient.root = h.root := rfl

@[simp] theorem lenientIsRoot : h.lenient.isRoot = h.isRoot := rfl

theorem lenientAscend (steps : Nat) (kind : Kind) : h.lenient.ascend steps kind = h.ascend steps kind := by
  induction steps generalizing kind with
  | zero => rfl
  | succ steps ih =>
    unfold ascend
    simp only [ih]
    rfl

@[simp] theorem lenientLineage : h.lenient.lineage = h.lineage := by
  funext kind
  exact lenientAscend h (h.parents.size + 1) kind

@[simp] theorem lenientIsCoveredBy : h.lenient.isCoveredBy = h.isCoveredBy := by
  funext kind cover
  simp only [isCoveredBy, lenientIsRoot, lenientLineage]

@[simp] theorem lenientIsTracked : h.lenient.isTracked = h.isTracked := by
  funext kind
  simp only [isTracked, lenientLineage]
  rfl

end Hierarchy

namespace EffectSet

variable (h : Hierarchy)

@[simp] theorem lenientOfKinds : ofKinds h.lenient = ofKinds h := by
  have same : insert h.lenient = insert h := by
    funext set kind
    unfold insert
    rw [Hierarchy.lenientIsTracked, Hierarchy.lenientIsRoot]
  funext kinds
  simp only [ofKinds, same]

@[simp] theorem lenientSingleton : singleton h.lenient = singleton h := by
  funext kind
  simp only [singleton, lenientOfKinds]

@[simp] theorem lenientNormalized : normalized h.lenient = normalized h := by
  funext set
  cases set <;> simp only [normalized, lenientOfKinds]

@[simp] theorem lenientUncoveredBy : uncoveredBy h.lenient = uncoveredBy h := by
  funext a b
  cases a <;> cases b <;> simp only [uncoveredBy, covers, Hierarchy.lenientIsCoveredBy]

@[simp] theorem lenientCoveredByAny : coveredByAny h.lenient = coveredByAny h := by
  funext set listed
  cases set <;> simp only [coveredByAny, Hierarchy.lenientIsCoveredBy]

@[simp] theorem lenientToKindList : toKindList h.lenient = toKindList h := by
  funext set
  cases set <;> simp only [toKindList, Hierarchy.lenientRoot]

@[simp] theorem lenientWithout : without h.lenient = without h := by
  funext set coverage
  cases set <;> cases coverage <;> simp only [without, Coverage.covers, Hierarchy.lenientIsCoveredBy]

@[simp] theorem lenientToEffectSet (coverage : Coverage) :
    coverage.toEffectSet h.lenient = coverage.toEffectSet h := by
  cases coverage <;> simp only [Coverage.toEffectSet, lenientOfKinds]

end EffectSet

namespace Hierarchies

variable (h : Hierarchies)

@[simp] theorem lenientGet (category : Category) : h.lenient.get category = (h.get category).lenient := by
  cases category <;> rfl

@[simp] theorem lenientRaises : h.lenient.raises = h.raises.lenient := rfl

@[simp] theorem lenientTags : h.lenient.tags = h.tags.lenient := rfl

@[simp] theorem lenientAccumulate : Contribution.accumulate h.lenient = Contribution.accumulate h := by
  have target : Contribution.ofTarget h.lenient = Contribution.ofTarget h := by
    funext table category target
    cases target <;> simp [Contribution.ofTarget, Contribution.declaredSet]
  have raised : Contribution.ofRaise h.lenient = Contribution.ofRaise h := by
    funext site
    simp [Contribution.ofRaise]
  have escapes : Contribution.escaping h.lenient = Contribution.escaping h := by
    funext filter category context set
    cases category <;> simp [Contribution.escaping]
  funext table sites category filter
  unfold Contribution.accumulate Contribution.ofEdges Contribution.ofRaises Contribution.ofEdge
  rw [target, raised, escapes]

@[simp] theorem lenientPasses (visits : List Inference.Visit) (bound fuel : Nat)
    (p : Inference.Progress) :
    Inference.passes h.lenient visits bound fuel p = Inference.passes h visits bound fuel p := by
  have once : Inference.visit h.lenient = Inference.visit h := by
    funext table v
    simp [Inference.visit]
  have round : ∀ table, Inference.pass h.lenient table visits = Inference.pass h table visits := by
    induction visits with
    | nil => exact fun _ => rfl
    | cons v rest ih =>
      intro table
      simp only [Inference.pass, once, ih]
  induction fuel generalizing p with
  | zero => rfl
  | succ fuel ih => simp only [Inference.passes, round, ih]

@[simp] theorem lenientCheckProgram :
    Assignability.checkProgram h.lenient = Assignability.checkProgram h := by
  have bound : Assignability.bound h.lenient = Assignability.bound h := by
    funext type category
    simp [Assignability.bound]
  have source : Assignability.sourceSet h.lenient = Assignability.sourceSet h := by
    unfold Assignability.sourceSet
    rw [bound]
  have declared : Assignability.checkDeclared h.lenient = Assignability.checkDeclared h := by
    funext r effects category
    unfold Assignability.checkDeclared
    dsimp only
    rw [lenientGet, EffectSet.lenientUncoveredBy, EffectSet.lenientToKindList]
  have forbidden : Assignability.checkForbidden h.lenient = Assignability.checkForbidden h := by
    unfold Assignability.checkForbidden
    rw [lenientTags, EffectSet.lenientCoveredByAny, EffectSet.lenientToKindList]
  have violation : Assignability.bindingViolation h.lenient = Assignability.bindingViolation h := by
    funext id site category kinds
    unfold Assignability.bindingViolation
    rw [lenientGet, EffectSet.lenientToKindList]
  have missing : Assignability.missingKinds h.lenient = Assignability.missingKinds h := by
    funext table value target category
    unfold Assignability.missingKinds
    rw [lenientGet, EffectSet.lenientUncoveredBy, bound, source]
  unfold Assignability.checkProgram Assignability.checkDeclaration Assignability.checkBinding
    Assignability.forbiddenKinds
  rw [declared, forbidden, violation, missing, source, lenientTags, EffectSet.lenientCoveredByAny]

@[simp] theorem lenientReports (g : CallGraph) (table : EffectTable) :
    EffectReport.all g h.lenient table = EffectReport.all g h table := by
  unfold EffectReport.all EffectReport.ofMarker
  rw [lenientAccumulate]

@[simp] theorem lenientToDiagnostic :
    EffectReport.toDiagnostic h.lenient = EffectReport.toDiagnostic h := by
  funext report
  simp [EffectReport.toDiagnostic, EffectSet.describe]

end Hierarchies

theorem lenientConcluded (config : Config) (registry : Registry) (program : Program) (h : Hierarchies)
    (g : CallGraph) : concluded config.lenient registry program h.lenient g =
      concluded config registry program h g := by
  have seeded : Inference.seed (inferenceOf config.lenient registry program h.lenient g) =
      Inference.seed (inferenceOf config registry program h g) := by
    have own : Inference.seedRoutine (inferenceOf config.lenient registry program h.lenient g) =
        Inference.seedRoutine (inferenceOf config registry program h g) := by
      funext r
      simp [Inference.seedRoutine, Inference.seedCategory, Inference.publishedSet?, inferenceOf]
    simp only [Inference.seed, own]
    rfl
  have ran : Inference.run (inferenceOf config.lenient registry program h.lenient g) =
      Inference.run (inferenceOf config registry program h g) := by
    simp only [Inference.run, seeded]
    simp only [inferenceOf, Hierarchies.lenientPasses]
    rfl
  simp only [concluded, ran, Hierarchies.lenientCheckProgram, Hierarchies.lenientReports,
    Hierarchies.lenientToDiagnostic]
  rfl

theorem lenientRoutineSites {program : Program} {h : Hierarchies} {r : Routine} {s : RoutineSites}
    (ok : Collect.routineSites program h r = .ok s) : Collect.routineSites program h.lenient r = .ok s := by
  refine Collect.routineSitesAlike ok ⟨rfl, ?_, rfl, fun _ _ => rfl, fun _ => rfl⟩
  intro category kind context _
  rw [Hierarchies.lenientGet]
  exact Hierarchy.checkKindOk.mpr (Hierarchy.lenientPermits _ _)

theorem lenientOfProgram {program : Program} {h : Hierarchies} {g : CallGraph}
    (built : CallGraph.ofProgram program h = .ok g) : CallGraph.ofProgram program h.lenient = .ok g := by
  obtain ⟨distinct, _, walked⟩ := CallGraph.ofProgramOk.mp built
  refine CallGraph.ofProgramOk.mpr ⟨distinct, ?_, walked.imp fun _ _ ok => lenientRoutineSites ok⟩
  intro v _
  refine succeedsUnit.mp ((Collect.checkClausesLegal _ _ _).mpr ?_)
  intro m _
  rw [Hierarchies.lenientGet]
  exact Hierarchy.lenientPermits _ _

end EffectAudit
