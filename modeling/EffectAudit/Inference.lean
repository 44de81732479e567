import EffectAudit.CallGraph
import EffectAudit.Config
import EffectAudit.Contribution
import EffectAudit.Published
/-! Inference by passes. A pass visits every routine that has a body and joins what its sites add
under the table as it stands; passes repeat until one changes nothing. Sets only grow. Once the pass
bound is reached, every routine that still grew is set to unknown, so the passes end. -/
namespace EffectAudit

structure Metrics where
  routinesAnalyzed : Nat := 0
  passes : Nat := 0
  passBound : Nat := 0
  widened : Nat := 0
  publishedHits : Nat := 0
  converged : Bool := false
  deriving DecidableEq, Repr

def Metrics.summary (m : Metrics) (elapsed : String) : String :=
  s!"{m.routinesAnalyzed} routines, {m.passes} passes (bound {m.passBound}), " ++
    s!"{m.widened} widened, {elapsed}"

namespace Inference

structure Setting where
  program : Program
  graph : CallGraph
  hierarchies : Hierarchies
  config : Config
  registry : Registry := {}

variable (i : Setting)

def publishedSet? (routine : Routine) (category : Category) : Option EffectSet :=
  if (routine.declared category).isNone && !routine.hasBody && routine.origin = .imported then
    i.registry.lookup? routine.id category
  else none

/-- A declared list is final. Without one, a body starts from nothing and a routine without a body may
do anything, unless its effects are published. -/
def seedCategory (routine : Routine) (category : Category) : CategoryEffects :=
  let h := i.hierarchies.get category
  match routine.declared category with
  | some kinds =>
    let declared := EffectSet.ofKinds h kinds
    { CategoryEffects.ofDeclared declared with inferred := if routine.hasBody then ∅ else declared }
  | none =>
    if routine.hasBody then .ofInferred ∅
    else
      match publishedSet? i routine category with
      | some set => .ofInferred (set.normalized h)
      | none => .ofInferred .unknown

def seedRoutine (routine : Routine) : RoutineEffects :=
  { routine := routine.id
    raises := seedCategory i routine .raises
    tags := seedCategory i routine .tags
    analyzed := routine.hasBody
    dispatched := routine.kind.isDispatched }

def seed : EffectTable := i.program.routines.foldl (fun t r => t.insert (seedRoutine i r)) .empty

def publishedHits : Nat :=
  (i.program.routines.flatMap fun r => Category.all.filterMap (publishedSet? i r)).length

def visitOrder (table : EffectTable) : List RoutineId :=
  let order := match i.config.visitOrder with
    | .declaration => i.graph.declarationOrder
    | .calleesFirst => i.graph.calleesFirstOrder
  order.filter fun id => (table.get? id).any (·.analyzed)

abbrev Visit := RoutineId × RoutineSites

def visits (order : List RoutineId) : List Visit :=
  order.filterMap fun id => (i.graph.sites? id).map (id, ·)

def visit (h : Hierarchies) (table : EffectTable) (v : Visit) : EffectTable × Bool :=
  let raises := Contribution.accumulate h table v.2 .raises .all
  let tags := Contribution.accumulate h table v.2 .tags .all
  match table.get? v.1 with
  | none => (table, false)
  | some effects =>
    if effects.raises.grows raises || effects.tags.grows tags then
      (table.modify v.1 fun e =>
        { e with raises := e.raises.absorb raises, tags := e.tags.absorb tags }, true)
    else (table, false)

def pass (h : Hierarchies) (table : EffectTable) : List Visit → EffectTable × List RoutineId
  | [] => (table, [])
  | v :: rest =>
    let (table, grew) := visit h table v
    let (table, grown) := pass h table rest
    (table, if grew then v.1 :: grown else grown)

def widen (table : EffectTable) (grown : List RoutineId) : EffectTable × Nat :=
  grown.foldl
    (fun (table, count) id =>
      match table.get? id with
      | none => (table, count)
      | some effects =>
        (table.modify id (·.widen), if effects.isUnknown then count else count + 1))
    (table, 0)

/-- Where the passes stand. Snapshots are the tables after each pass, before widening, latest
first. -/
structure Progress where
  table : EffectTable
  snapshots : List EffectTable := []
  widened : Nat := 0
  converged : Bool := false

def passes (h : Hierarchies) (visits : List Visit) (bound : Nat) : Nat → Progress → Progress
  | 0, p => p
  | fuel + 1, p =>
    let (table, grown) := pass h p.table visits
    let p := { p with table, snapshots := table :: p.snapshots }
    if grown.isEmpty then { p with converged := p.widened == 0 }
    else if p.snapshots.length ≥ bound then
      let (table, count) := widen table grown
      passes h visits bound fuel { p with table, widened := p.widened + count }
    else passes h visits bound fuel p

structure Outcome where
  table : EffectTable
  snapshots : List EffectTable
  metrics : Metrics

/-- Each pass after the bound sets at least one more routine to unknown, so bound and number of
routines together limit the passes. -/
def run : Outcome :=
  let seed := seed i
  let order := visitOrder i seed
  let visits := visits i order
  let bound := i.config.passBound order.length i.hierarchies.latticeHeight
  let p := passes i.hierarchies visits bound (bound + order.length) { table := seed }
  { table := p.table
    snapshots := p.snapshots.reverse
    metrics :=
      { routinesAnalyzed := order.length
        passes := p.snapshots.length
        passBound := bound
        widened := p.widened
        publishedHits := publishedHits i
        converged := p.converged } }

end Inference
end EffectAudit
