import EffectAudit.Proofs.Program.Rewritten
import EffectAudit.Proofs.Site.Effective
/-! Inference sees of a unit the start table, which routine leads to which, and what the sites of each
routine add up to. Units in which these are the same go through the same passes, table by table, and
their reports are the same. -/
namespace EffectAudit

namespace CallGraph

def Interchangeable (h : Hierarchies) (g g' : CallGraph) : Prop :=
  List.Forall₂ (RoutineSites.Interchangeable h) g.sites g'.sites

variable {h : Hierarchies} {g g' : CallGraph} (same : Interchangeable h g g')
include same

theorem interchangedNames : g.declarationOrder = g'.declarationOrder :=
  relatedMap same fun _ _ sites => sites.routine

theorem interchangedNodes : g.node? = g'.node? := by
  funext id
  unfold node?
  rw [interchangedNames same]

theorem interchangedEdges : g.edges = g'.edges := by
  unfold edges
  rw [List.flatMap_def, List.flatMap_def]
  refine congrArg List.flatten (relatedMap same fun one other sites => ?_)
  rw [interchangedNodes same, sites.routine, ← List.filterMap_filterMap, ← List.filterMap_filterMap,
    sites.targets]

theorem interchangedOrder : g.calleesFirstOrder = g'.calleesFirstOrder := by
  have size : g.size = g'.size := same.length_eq
  unfold calleesFirstOrder components
  rw [size, interchangedEdges same, interchangedNames same]

theorem interchangedSites (id : RoutineId) :
    Option.Rel (RoutineSites.Interchangeable h) (g.sites? id) (g'.sites? id) := by
  unfold sites?
  rw [interchangedNodes same]
  cases g'.node? id with
  | none => exact .none
  | some node => exact relatedAt same node

theorem interchangedReports (table : EffectTable) :
    EffectReport.all g h table = EffectReport.all g' h table := by
  unfold EffectReport.all
  rw [List.flatMap_def, List.flatMap_def]
  exact congrArg List.flatten (relatedMap same fun _ _ sites => sites.reports table)

end CallGraph

namespace Inference

variable {h : Hierarchies}

structure SameVisit (h : Hierarchies) (v w : Visit) : Prop where
  routine : v.1 = w.1
  sites : v.2.Interchangeable h w.2

theorem visitInterchanged {v w : Visit} (same : SameVisit h v w) (table : EffectTable) :
    visit h table v = visit h table w := by
  unfold visit
  rw [same.routine, same.sites.sums, same.sites.sums]

theorem passInterchanged {vs ws : List Visit} (same : List.Forall₂ (SameVisit h) vs ws)
    (table : EffectTable) : pass h table vs = pass h table ws := by
  induction same generalizing table with
  | nil => rfl
  | cons one _ ih =>
    unfold pass
    rw [visitInterchanged one, one.routine]
    simp only [ih]

theorem passesInterchanged {vs ws : List Visit} (same : List.Forall₂ (SameVisit h) vs ws)
    (bound fuel : Nat) (p : Progress) : passes h vs bound fuel p = passes h ws bound fuel p := by
  induction fuel generalizing p with
  | zero => rfl
  | succ fuel ih =>
    unfold passes
    rw [passInterchanged same]
    simp only [ih]

variable {g g' : CallGraph}

theorem visitsInterchanged (config : Config) (registry : Registry) (p p' : Program)
    (same : CallGraph.Interchangeable h g g') (order : List RoutineId) :
    List.Forall₂ (SameVisit h) (visits (inferenceOf config registry p h g) order)
      (visits (inferenceOf config registry p' h g') order) := by
  refine List.rel_filterMap (R := Eq) ?_ (List.forall₂_same.mpr fun _ _ => rfl)
  intro id other equal
  cases equal
  have sites := CallGraph.interchangedSites same id
  change Option.Rel _ ((g.sites? id).map _) ((g'.sites? id).map _)
  generalize g.sites? id = one, g'.sites? id = two at sites
  cases sites with
  | none => exact .none
  | some equivalent => exact .some ⟨rfl, equivalent⟩

theorem runInterchanged {config : Config} {registry : Registry} {p p' : Program}
    (same : CallGraph.Interchangeable h g g')
    (start : seed (inferenceOf config registry p' h g') = seed (inferenceOf config registry p h g))
    (hits : publishedHits (inferenceOf config registry p' h g') =
      publishedHits (inferenceOf config registry p h g)) :
    run (inferenceOf config registry p' h g') = run (inferenceOf config registry p h g) := by
  have names : (inferenceOf config registry p' h g').graph.declarationOrder = g.declarationOrder :=
    (CallGraph.interchangedNames same).symm
  have callees : (inferenceOf config registry p' h g').graph.calleesFirstOrder = g.calleesFirstOrder :=
    (CallGraph.interchangedOrder same).symm
  have order (table : EffectTable) : visitOrder (inferenceOf config registry p' h g') table =
      visitOrder (inferenceOf config registry p h g) table := by
    unfold visitOrder
    rw [names, callees]
    rfl
  unfold run
  dsimp only
  rw [start, hits, order]
  rw [show (inferenceOf config registry p' h g').hierarchies = h from rfl,
    ← passesInterchanged (visitsInterchanged config registry p p' same _)]
  rfl

end Inference
end EffectAudit
