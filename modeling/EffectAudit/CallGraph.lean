import EffectAudit.Site.Collect
import EffectAudit.CallGraph.Components
/-! The routines of a unit, each with its sites, and the calls between them that are known without
running anything. -/
namespace EffectAudit

/-- One entry per routine, in declaration order. An entry is a node of the graph; of two entries for
one routine the later stands for its name. -/
structure CallGraph where
  sites : List RoutineSites
  deriving DecidableEq, Repr

namespace CallGraph

def size (g : CallGraph) : Nat := g.sites.length

def isEmpty (g : CallGraph) : Bool := g.sites.isEmpty

def declarationOrder (g : CallGraph) : List RoutineId := g.sites.map (·.routine)

def node? (g : CallGraph) (id : RoutineId) : Option Nat :=
  (g.declarationOrder.zipIdx.reverse.find? (·.1 == id)).map (·.2)

def sites? (g : CallGraph) (id : RoutineId) : Option RoutineSites :=
  (g.node? id).bind fun node => g.sites[node]?

def edges (g : CallGraph) : List (Nat × Nat) :=
  g.sites.flatMap fun routine =>
    match g.node? routine.routine with
    | none => []
    | some caller =>
      (routine.edges.filterMap fun site => site.target.routine?.bind g.node?).map (caller, ·)

def successors (edges : List (Nat × Nat)) (node : Nat) : List Nat :=
  (edges.filterMap fun (caller, callee) => if caller = node then some callee else none).reverse

def components (g : CallGraph) : List (List RoutineId) :=
  let edges := g.edges
  let table := (Array.range g.size).map (successors edges)
  let labels := g.declarationOrder.toArray
  (Components.components g.size fun node => table.getD node []).map fun component =>
    component.map fun node => labels.getD node ""

def calleesFirstOrder (g : CallGraph) : List RoutineId := g.components.flatten

def duplicate? : List RoutineId → List RoutineId → Option RoutineId
  | _, [] => none
  | seen, id :: rest => if id ∈ seen then some id else duplicate? (id :: seen) rest

def ofProgram (program : Program) (h : Hierarchies) : Except Error CallGraph := do
  match duplicate? [] (program.routines.map (·.id)) with
  | some id => throw (.duplicateRoutine id)
  | none => pure ()
  program.globals.forM fun g => Collect.checkClauses h g.type.effects g.name
  let sites ← program.routines.mapM (Collect.routineSites program h)
  return ⟨sites⟩

end CallGraph
end EffectAudit
