import EffectAudit.Proofs.Inference.LeastSolution
import EffectAudit.Proofs.Tree.Flattening
/-! Routines in value position. A routine that a body names as a value counts as if it were called right
there: the tags of a reference to it are all in the sets of the body, and of the exceptions those that
no handler around the place covers. Where the value is called later makes no difference, so a handler
around the mention hides what a call outside of it lets out. -/
namespace EffectAudit

mutual

def Expr.values : Expr → List RoutineId
  | .nil => []
  | .literal _ => []
  | .name _ => []
  | .routine id => [id]
  | .call callee args _ => callee.values ++ Expr.allValues args

def Callee.values : Callee → List RoutineId
  | .routine _ => []
  | .binding _ => []
  | .computed value => value.values

def Expr.allValues : List Expr → List RoutineId
  | [] => []
  | value :: rest => value.values ++ Expr.allValues rest

end

def Expr.optionalValues : Option Expr → List RoutineId
  | none => []
  | some value => value.values

structure Mention where
  routine : RoutineId
  around : List Handler

namespace Mention

def bare (ids : List RoutineId) : List Mention := ids.map fun id => ⟨id, []⟩

def within (handlers : List Handler) (m : Mention) : Mention := { m with around := m.around ++ handlers }

end Mention

mutual

def Stmt.values : Stmt → List Mention
  | .expr value => Mention.bare value.values
  | .define _ _ value _ => Mention.bare (Expr.optionalValues value)
  | .assign _ value _ => Mention.bare value.values
  | .raise _ args _ => Mention.bare (Expr.allValues args)
  | .branch arms otherwise => BranchArm.allValues arms ++ Stmt.optionalValues otherwise
  | .loop cond body => Mention.bare cond.values ++ Stmt.allValues body
  | .protect body handlers cleanup =>
    (Stmt.allValues body).map (·.within handlers) ++ Handler.allValues handlers ++
      Stmt.optionalValues cleanup
  | .block body => Stmt.allValues body
  | .exit value => Mention.bare (Expr.optionalValues value)
  | .marker _ _ => []

def Stmt.allValues : List Stmt → List Mention
  | [] => []
  | stmt :: rest => stmt.values ++ Stmt.allValues rest

def Stmt.optionalValues : Option (List Stmt) → List Mention
  | none => []
  | some body => Stmt.allValues body

def BranchArm.allValues : List BranchArm → List Mention
  | [] => []
  | .mk cond body :: rest =>
    Mention.bare cond.values ++ Stmt.allValues body ++ BranchArm.allValues rest

def Handler.allValues : List Handler → List Mention
  | [] => []
  | .mk _ body :: rest => Stmt.allValues body ++ Handler.allValues rest

end

def Piece.values : Piece → List Mention
  | .stmt code => code.values
  | .block body => Stmt.allValues body
  | .optional body => Stmt.optionalValues body
  | .arms chain otherwise => BranchArm.allValues chain ++ Stmt.optionalValues otherwise
  | .handlers _ _ list => Handler.allValues list

def Routine.values (r : Routine) : List Mention := Stmt.allValues (r.body.getD [])

namespace Tree
open Collect

variable {u : Setting} {table : EffectTable} {category : Category}

theorem uncaughtNobody (h : Hierarchy) (set : EffectSet) : set.uncaught h [] = set := by
  apply EffectSet.eqOfHolds
  intro x
  rw [EffectSet.uncaughtHolds]
  constructor
  · rintro ⟨y, held, _, rfl | rfl⟩
    · exact EffectSet.holdsOfAnything held x
    · exact held
  · intro held
    exact ⟨x, held, by simp, .inr rfl⟩

theorem throughNobody (set : EffectSet) : throughHandlers u category [] set = set := by
  cases category with
  | tags => rfl
  | raises => exact uncaughtNobody _ set

theorem throughMore {inner outer : List Handler} {set whole : EffectSet}
    (inside : throughHandlers u category inner set ≤ whole) :
    throughHandlers u category (inner ++ outer) set ≤ throughHandlers u category outer whole := by
  cases category with
  | tags => exact inside
  | raises =>
    rw [EffectSet.leHolds] at inside ⊢
    intro x member
    obtain ⟨y, held, lets, yields⟩ := EffectSet.uncaughtHolds.mp member
    refine EffectSet.uncaughtHolds.mpr ⟨y, ?_, ?_, yields⟩
    · apply inside
      refine EffectSet.uncaughtHolds.mpr ⟨y, held, ?_, .inr rfl⟩
      exact fun handler listed => lets handler (List.mem_append_left _ listed)
    · exact fun handler listed => lets handler (List.mem_append_right _ listed)

mutual

theorem exprValues (s : Scope) (value : Expr) {id : RoutineId} (named : id ∈ value.values) :
    table.referenceSet id category ≤ exprEffects u table category s value := by
  cases value with
  | nil => simp [Expr.values] at named
  | literal text => simp [Expr.values] at named
  | name name => simp [Expr.values] at named
  | routine other =>
    rw [Expr.values, List.mem_singleton] at named
    subst named
    exact le_rfl
  | call callee args span =>
    unfold exprEffects
    rw [Expr.values, List.mem_append] at named
    rcases named with called | passed
    · exact (calleeValues s callee called).trans (EffectSet.leUnionLeft _ _)
    · exact (exprsValues s args passed).trans (EffectSet.leUnionRight _ _)

theorem calleeValues (s : Scope) (callee : Callee) {id : RoutineId} (named : id ∈ callee.values) :
    table.referenceSet id category ≤ calleeEffects u table category s callee := by
  cases callee with
  | routine other => simp [Callee.values] at named
  | binding name => simp [Callee.values] at named
  | computed value =>
    unfold calleeEffects
    exact (exprValues s value named).trans (EffectSet.leUnionRight _ _)

theorem exprsValues (s : Scope) (values : List Expr) {id : RoutineId}
    (named : id ∈ Expr.allValues values) :
    table.referenceSet id category ≤ exprsEffects u table category s values := by
  cases values with
  | nil => simp [Expr.allValues] at named
  | cons value rest =>
    unfold exprsEffects
    rw [Expr.allValues, List.mem_append] at named
    rcases named with first | later
    · exact (exprValues s value first).trans (EffectSet.leUnionLeft _ _)
    · exact (exprsValues s rest later).trans (EffectSet.leUnionRight _ _)

end

theorem optionalValues (s : Scope) (value : Option Expr) {id : RoutineId}
    (named : id ∈ Expr.optionalValues value) :
    table.referenceSet id category ≤ optionalEffects u table category s value := by
  cases value with
  | none => simp [Expr.optionalValues] at named
  | some value => exact exprValues s value named

def Counts (u : Setting) (table : EffectTable) (category : Category) (whole : EffectSet)
    (m : Mention) : Prop :=
  throughHandlers u category m.around (table.referenceSet m.routine category) ≤ whole

theorem countsLe {small large : EffectSet} {m : Mention} (counts : Counts u table category small m)
    (grows : small ≤ large) : Counts u table category large m :=
  le_trans counts grows

theorem countsBare {ids : List RoutineId} {whole : EffectSet}
    (each : ∀ id ∈ ids, table.referenceSet id category ≤ whole) :
    ∀ m ∈ Mention.bare ids, Counts u table category whole m := by
  intro m member
  obtain ⟨id, listed, rfl⟩ := List.mem_map.mp member
  exact (throughNobody _).le.trans (each id listed)

theorem countsAppend {first second : List Mention} {one two : EffectSet}
    (left : ∀ m ∈ first, Counts u table category one m)
    (right : ∀ m ∈ second, Counts u table category two m) :
    ∀ m ∈ first ++ second, Counts u table category (one.union two) m := by
  rw [List.forall_mem_append]
  exact ⟨fun m member => countsLe (left m member) (EffectSet.leUnionLeft _ _),
    fun m member => countsLe (right m member) (EffectSet.leUnionRight _ _)⟩

theorem countsWithin {mentions : List Mention} {inside : EffectSet} (handlers : List Handler)
    (each : ∀ m ∈ mentions, Counts u table category inside m) :
    ∀ m ∈ mentions.map (·.within handlers),
      Counts u table category (throughHandlers u category handlers inside) m := by
  intro m member
  obtain ⟨inner, listed, rfl⟩ := List.mem_map.mp member
  exact throughMore (each inner listed)

theorem plainCounts {code : Stmt} (simple : code.isPlain = true) (caught : Coverage) (s : Scope) :
    ∀ m ∈ code.values, Counts u table category (stmtEffects u table category caught s code).2 m := by
  cases code, simple using Stmt.plainCases with
  | expr value => exact countsBare fun _ named => exprValues s value named
  | define name type value span => exact countsBare fun _ named => optionalValues s value named
  | assign name value span => exact countsBare fun _ named => exprValues s value named
  | raise kind args span =>
    exact countsBare fun _ named => (exprsValues s args named).trans (EffectSet.leUnionLeft _ _)
  | exit value => exact countsBare fun _ named => optionalValues s value named
  | marker label span => simp [Stmt.values]

theorem pieceCounts (caught : Coverage) (s : Scope) (piece : Piece) :
    ∀ m ∈ piece.values, Counts u table category (pieceEffects u table category caught s piece).2 m := by
  induction piece using Piece.induct generalizing caught s with
  | plain code simple => exact plainCounts simple caught s
  | branch arms otherwise ih =>
    rw [Piece.values, Stmt.values]
    exact ih caught s
  | loop cond body ih =>
    rw [pieceEffects, stmtEffects, Piece.values, Stmt.values]
    exact countsAppend (countsBare fun _ named => exprValues s cond named) (ih caught s)
  | protect body handlers cleanup attempt handler last =>
    rw [pieceEffects, stmtEffects, Piece.values, Stmt.values]
    exact countsAppend (countsAppend (countsWithin handlers (attempt caught s)) (handler 0 caught _))
      (last caught _)
  | nested body ih =>
    rw [pieceEffects, stmtEffects, Piece.values, Stmt.values]
    exact ih caught s
  | nil => simp [Piece.values, Stmt.allValues]
  | cons code rest first others =>
    rw [pieceEffects, blockEffects, Piece.values, Stmt.allValues]
    exact countsAppend (first caught s) (others caught _)
  | absent => simp [Piece.values, Stmt.optionalValues]
  | present body ih => exact ih caught s
  | skipped otherwise ih =>
    rw [pieceEffects, stmtEffects, armsEffects, EffectSet.emptyUnion]
    exact ih caught s
  | arm cond body rest otherwise first others =>
    rw [armsEffectsCons, Piece.values, BranchArm.allValues, List.append_assoc]
    exact countsAppend
      (countsAppend (countsBare fun _ named => exprValues s cond named) (first caught s)) (others caught _)
  | unhandled construct index => simp [Piece.values, Handler.allValues]
  | handler construct index kinds body rest first others =>
    rw [pieceEffects, handlersEffects, Piece.values, Handler.allValues]
    exact countsAppend (first _ s) (others caught _)

end Tree

namespace Inference
open EffectAudit.Tree

variable {i : Setting}

theorem treeLeInferred (built : CallGraph.ofProgram i.program i.hierarchies = .ok i.graph) {r : Routine}
    (listed : r ∈ i.program.routines) (body : r.hasBody = true) (category : Category) :
    routineEffects ⟨i.program, i.hierarchies, r⟩ (run i).table category ≤
      (run i).table.inferred r.id category := by
  obtain ⟨sites, found, walked⟩ := CallGraph.sitesOfRoutine built listed
  refine le_trans (le_of_eq ?_) (runRule built listed body found category)
  obtain ⟨scope, events, walk, rfl⟩ := Collect.routineWalk walked
  have whole : Agrees ⟨i.program, i.hierarchies, r⟩ (run i).table .all category {} scope events
      (blockEffects ⟨i.program, i.hierarchies, r⟩ (run i).table category .all {} (r.body.getD [])) :=
    walkFlattened walk (appliesAll _ _)
  rw [Contribution.accumulateEvents, Contribution.admittedAll, whole.sum]
  cases category <;> rfl

/- All tags of a mentioned routine count, and of its exceptions those that no handler around the
mention covers; outside every protected body nothing is taken off. -/
theorem mentionsCountWherePlaced
    (built : CallGraph.ofProgram i.program i.hierarchies = .ok i.graph) {r : Routine}
    (listed : r ∈ i.program.routines) {m : Mention} (mentioned : m ∈ r.values) :
    (run i).table.referenceSet m.routine .tags ≤ (run i).table.inferred r.id .tags ∧
      ((run i).table.referenceSet m.routine .raises).uncaught i.hierarchies.raises m.around ≤
        (run i).table.inferred r.id .raises ∧
      (m.around = [] →
        (run i).table.referenceSet m.routine .raises ≤ (run i).table.inferred r.id .raises) := by
  have body : r.hasBody = true := by
    unfold Routine.values at mentioned
    unfold Routine.hasBody
    cases present : r.body with
    | some stmts => rfl
    | none => simp [present, Stmt.allValues] at mentioned
  have counts (category : Category) : Counts ⟨i.program, i.hierarchies, r⟩ (run i).table category
      ((run i).table.inferred r.id category) m :=
    countsLe (pieceCounts .all {} (.block _) m mentioned) (treeLeInferred built listed body category)
  refine ⟨counts .tags, counts .raises, ?_⟩
  intro outside
  have rest : ((run i).table.referenceSet m.routine .raises).uncaught i.hierarchies.raises m.around ≤
      (run i).table.inferred r.id .raises := counts .raises
  rwa [outside, uncaughtNobody] at rest

/- A routine that sets its own parameter to a routine that raises, under a handler for what that
raises, and calls the parameter after the handler is gone. -/
def shelter : Program :=
  { unit := "shelter"
    routines := [
      { id := "bad", body := some [.raise (some "IOError") [] .zero, .raise (some "Timeout") [] .zero] },
      { id := "main"
        params := [⟨"step", .proc {}⟩]
        body := some [
          .protect [.assign "step" (.routine "bad") .zero] [.mk ["IOError"] []] none,
          .expr (.call (.binding "step") [] .zero)] }] }

def shelterSetting : Setting :=
  { program := shelter
    graph := (CallGraph.ofProgram shelter .builtin).toOption.getD ⟨[]⟩
    hierarchies := .builtin
    config := .ofPreset .permissive }

theorem shelterKeepsTimeout :
    ∃ r ∈ shelter.routines, ∃ m ∈ r.values,
      ((run shelterSetting).table.referenceSet m.routine .raises).uncaught
          shelterSetting.hierarchies.raises m.around = .known (.ofList ["Timeout"]) ∧
      ((run shelterSetting).table.referenceSet m.routine .raises).uncaught
          shelterSetting.hierarchies.raises m.around ≤
        (run shelterSetting).table.inferred r.id .raises := by
  refine ⟨_, List.get_mem shelter.routines ⟨1, by decide⟩, _, List.mem_singleton.mpr rfl,
    by decide +kernel, ?_⟩
  exact (mentionsCountWherePlaced (i := shelterSetting) (by decide +kernel)
    (List.get_mem shelter.routines ⟨1, by decide⟩) (List.mem_singleton.mpr rfl)).2.1

theorem shelterHidesTheCall :
    CallGraph.ofProgram shelter .builtin = .ok shelterSetting.graph ∧
      ∃ r ∈ shelter.routines, ∃ m ∈ r.values,
        ¬(run shelterSetting).table.referenceSet m.routine .raises ≤
          (run shelterSetting).table.inferred r.id .raises := by
  refine ⟨by decide +kernel, _, List.get_mem shelter.routines ⟨1, by decide⟩, _,
    List.mem_singleton.mpr rfl, ?_⟩
  intro included
  have raised : (run shelterSetting).table.referenceSet "bad" .raises =
      .known (.ofList ["IOError", "Timeout"]) := by decide +kernel
  have admitted : (run shelterSetting).table.inferred "main" .raises = .known (.ofList ["Timeout"]) := by
    decide +kernel
  have inside := EffectSet.leHolds.mp included (.kind "IOError")
  change ((run shelterSetting).table.referenceSet "bad" .raises).Holds _ →
    ((run shelterSetting).table.inferred "main" .raises).Holds _ at inside
  rw [raised, admitted] at inside
  exact absurd (inside (by simp)) (by simp)

end Inference
end EffectAudit
