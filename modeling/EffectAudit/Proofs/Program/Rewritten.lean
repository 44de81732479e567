import EffectAudit.Proofs.Analysis
import EffectAudit.Proofs.Site.Lookup
/-! Units that differ in the bodies of their routines and in nothing else. Signatures, globals and kinds
are the same, so a body is walked alike in both units, and inference starts from the same table. -/
namespace EffectAudit

def Routine.Rewritten (B : List Stmt → List Stmt → Prop) (r r' : Routine) : Prop :=
  ∃ body, r' = { r with body } ∧ Option.Rel B r.body body

def Program.Rewritten (B : List Stmt → List Stmt → Prop) (p p' : Program) : Prop :=
  ∃ routines, p' = { p with routines } ∧ List.Forall₂ (Routine.Rewritten B) p.routines routines

section Rewritten

variable {B : List Stmt → List Stmt → Prop} {p p' : Program} {r r' : Routine}

theorem Routine.rewrittenBody (changed : r.Rewritten B r') : r'.hasBody = r.hasBody := by
  obtain ⟨body, rfl, related⟩ := changed
  change body.isSome = r.body.isSome
  generalize r.body = old at related ⊢
  cases related with
  | none => rfl
  | some _ => rfl

theorem Routine.rewrittenStmts (empty : B [] []) (changed : r.Rewritten B r') :
    B (r.body.getD []) (r'.body.getD []) := by
  obtain ⟨body, rfl, related⟩ := changed
  change B (r.body.getD []) (body.getD [])
  generalize r.body = old at related ⊢
  cases related with
  | none => exact empty
  | some given => exact given

theorem Routine.rewrittenSignature (changed : r.Rewritten B r') : r.signature = r'.signature := by
  obtain ⟨body, rfl, _⟩ := changed
  rfl

theorem Routine.rewrittenName (changed : r.Rewritten B r') : r.id = r'.id :=
  congrArg Prod.fst (rewrittenSignature changed)

theorem Program.routineSignature (p : Program) (id : RoutineId) :
    (p.routine? id).map Routine.signature =
      (p.routines.map Routine.signature).find? (·.1 == id) := by
  rw [List.find?_map]
  rfl

section Unit

variable (rewritten : p.Rewritten B p')
include rewritten

theorem rewrittenNames : p'.routines.map (·.id) = p.routines.map (·.id) := by
  obtain ⟨routines, rfl, all⟩ := rewritten
  exact (relatedMap all fun _ _ changed => Routine.rewrittenName changed).symm

theorem rewrittenRoutine (listed : r ∈ p.routines) : ∃ r' ∈ p'.routines, r.Rewritten B r' := by
  obtain ⟨routines, rfl, all⟩ := rewritten
  exact relatedMember all listed

theorem rewrittenWalk {h : Hierarchies} (changed : r.Rewritten B r') {place : Collect.Place}
    {s s' : Collect.Scope} {piece : Piece} {events : List Site.Event} :
    Collect.Walk ⟨p', h, r'⟩ place s piece s' events ↔ Collect.Walk ⟨p, h, r⟩ place s piece s' events := by
  obtain ⟨routines, rfl, all⟩ := rewritten
  have signature := Routine.rewrittenSignature changed
  have signatures (id : RoutineId) : (({ p with routines } : Program).routine? id).map Routine.signature =
      (p.routine? id).map Routine.signature := by
    rw [Program.routineSignature, Program.routineSignature,
      relatedMap all fun _ _ changed => Routine.rewrittenSignature changed]
  have forth : Collect.Alike (fun _ => True) ⟨p, h, r⟩ ⟨{ p with routines }, h, r'⟩ :=
    ⟨rfl, fun _ _ _ legal => legal, signature, fun id _ => (signatures id).symm, fun _ => rfl⟩
  have back : Collect.Alike (fun _ => True) ⟨{ p with routines }, h, r'⟩ ⟨p, h, r⟩ :=
    ⟨rfl, fun _ _ _ legal => legal, signature.symm, fun id _ => signatures id, fun _ => rfl⟩
  exact ⟨fun walk => Collect.walkAlike back walk fun _ _ => trivial,
    fun walk => Collect.walkAlike forth walk fun _ _ => trivial⟩

theorem rewrittenSites {h : Hierarchies} (changed : r.Rewritten B r') {sites : RoutineSites}
    (before : Collect.routineSites p h r = .ok sites) {scope : Collect.Scope} {events : List Site.Event}
    (walk : Collect.Walk ⟨p, h, r⟩ {} {} (.block (r'.body.getD [])) scope events) :
    Collect.routineSites p' h r' = .ok (.ofEvents r.id events) := by
  have walked := Collect.blockWalk.mpr ((rewrittenWalk rewritten changed).mpr walk)
  obtain ⟨body, rfl, _⟩ := changed
  unfold Collect.routineSites at before ⊢
  obtain ⟨_, clauses, before⟩ := bindOk.mp before
  obtain ⟨_, params, _⟩ := bindOk.mp before
  exact bindOk.mpr ⟨(), clauses, bindOk.mpr ⟨(), params, bindOk.mpr ⟨_, walked, rfl⟩⟩⟩

end Unit

namespace Inference

variable {config : Config} {registry : Registry} {h : Hierarchies} {g g' : CallGraph}

theorem rewrittenPublished (changed : r.Rewritten B r') (category : Category) :
    publishedSet? (inferenceOf config registry p' h g') r' category =
      publishedSet? (inferenceOf config registry p h g) r category := by
  have bodies := Routine.rewrittenBody changed
  obtain ⟨body, rfl, _⟩ := changed
  unfold publishedSet?
  rw [bodies]
  rfl

theorem rewrittenSeedRoutine (changed : r.Rewritten B r') :
    seedRoutine (inferenceOf config registry p' h g') r' =
      seedRoutine (inferenceOf config registry p h g) r := by
  have bodies := Routine.rewrittenBody changed
  have published (category : Category) :
      publishedSet? (inferenceOf config registry p' h g') r' category =
        publishedSet? (inferenceOf config registry p h g) r category := rewrittenPublished changed category
  obtain ⟨body, rfl, _⟩ := changed
  unfold seedRoutine seedCategory
  rw [bodies, published, published]
  rfl

variable (rewritten : p.Rewritten B p')
include rewritten

theorem rewrittenSeed : seed (inferenceOf config registry p' h g') =
    seed (inferenceOf config registry p h g) := by
  have entries (i : Setting) : seed i =
      (i.program.routines.map (seedRoutine i)).foldl EffectTable.insert .empty :=
    List.foldl_map.symm
  obtain ⟨routines, rfl, all⟩ := rewritten
  rw [entries, entries]
  exact congrArg _ (relatedMap all fun _ _ changed => (rewrittenSeedRoutine changed).symm).symm

theorem rewrittenHits : publishedHits (inferenceOf config registry p' h g') =
    publishedHits (inferenceOf config registry p h g) := by
  obtain ⟨routines, rfl, all⟩ := rewritten
  unfold publishedHits
  rw [List.flatMap_def, List.flatMap_def]
  refine congrArg (fun sets : List (List EffectSet) => sets.flatten.length)
    (relatedMap all fun r r' changed => ?_).symm
  congr 1
  funext category
  exact (rewrittenPublished changed category).symm

end Inference
end Rewritten
end EffectAudit
