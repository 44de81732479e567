import EffectAudit.Proofs.Findings
import EffectAudit.Proofs.Inference.Normal
import EffectAudit.Proofs.Inference.PassBound
import EffectAudit.Proofs.Site.Legality
/-! A list copied from what was inferred. Where a routine declares no list for a category, the set that
inference found may be written into its signature: the declaration is kept to, and nothing else moves.
The rule of the routine becomes a constant. That constant is the routine's part of the least solution,
so the old solution solves the new rules and the new solution, with the constant put back in place of
what was declared, solves the old ones. -/
namespace EffectAudit

def Clauses.declaring (c : Clauses) (category : Category) (kinds : List Kind) : Clauses :=
  match category with
  | .raises => { c with raises := some kinds }
  | .tags => { c with tags := some kinds }

def Routine.declaring (r : Routine) (category : Category) (kinds : List Kind) : Routine :=
  { r with effects := r.effects.declaring category kinds }

def Routine.declaringAs (id : RoutineId) (category : Category) (kinds : List Kind) (r : Routine) :
    Routine :=
  if r.id = id then r.declaring category kinds else r

def Program.declaring (p : Program) (id : RoutineId) (category : Category) (kinds : List Kind) :
    Program :=
  { p with routines := p.routines.map (·.declaringAs id category kinds) }

variable {category : Category} {kinds : List Kind} {id : RoutineId} {program : Program}

theorem declaringDeclared (r : Routine) (category other : Category) (kinds : List Kind) :
    (r.declaring category kinds).declared other =
      if other = category then some kinds else r.declared other := by
  cases category <;> cases other <;> rfl

theorem declaringForbids (r : Routine) (category : Category) (kinds : List Kind) :
    (r.declaring category kinds).effects.forbids = r.effects.forbids := by
  cases category <;> rfl

theorem declaringOwn {r : Routine} (own : r.id = id) :
    r.declaringAs id category kinds = r.declaring category kinds := if_pos own

theorem declaringOther {r : Routine} (other : r.id ≠ id) : r.declaringAs id category kinds = r :=
  if_neg other

theorem declaringSignature (r : Routine) :
    (r.declaringAs id category kinds).signature = r.signature := by
  unfold Routine.declaringAs
  split
  · rfl
  · rfl

theorem declaringId (r : Routine) : (r.declaringAs id category kinds).id = r.id :=
  congrArg Prod.fst (declaringSignature r)

theorem declaringBody (r : Routine) : (r.declaringAs id category kinds).body = r.body := by
  unfold Routine.declaringAs
  split
  · rfl
  · rfl

theorem declaringRoutine (name : RoutineId) :
    (program.declaring id category kinds).routine? name =
      (program.routine? name).map (·.declaringAs id category kinds) := by
  unfold Program.routine? Program.declaring
  rw [List.find?_map]
  congr 2
  funext r
  exact congrArg (· == name) (declaringId r)

theorem declaringNames :
    (program.declaring id category kinds).routines.map (·.id) = program.routines.map (·.id) := by
  unfold Program.declaring
  rw [List.map_map]
  congr 1
  funext r
  exact declaringId r

theorem declaringBodies : (program.declaring id category kinds).bodyCount = program.bodyCount := by
  unfold Program.bodyCount Program.declaring
  rw [List.countP_map]
  congr 1
  funext r
  exact congrArg Option.isSome (declaringBody r)

section Lenient

variable {h : Hierarchies} (lenient : ∀ category kind, (h.get category).Permits kind)
include lenient

theorem lenientClauses (effects : Clauses) (context : String) :
    Collect.checkClauses h effects context = .ok () :=
  succeedsUnit.mp ((Collect.checkClausesLegal h effects context).mpr fun m _ => lenient m.1 m.2)

theorem declaringSites {r : Routine} {s : RoutineSites}
    (ok : Collect.routineSites program h r = .ok s) :
    Collect.routineSites (program.declaring id category kinds) h (r.declaringAs id category kinds) =
      .ok s := by
  have alike : Collect.Alike (fun _ => True) ⟨program, h, r⟩
      ⟨program.declaring id category kinds, h, r.declaringAs id category kinds⟩ := by
    refine ⟨rfl, fun _ _ _ ok => ok, (declaringSignature r).symm, ?_, fun _ => rfl⟩
    intro name _
    rw [declaringRoutine, Option.map_map]
    congr 1
    funext r
    exact (declaringSignature r).symm
  have params : (r.declaringAs id category kinds).params = r.params :=
    congrArg (·.2.2) (declaringSignature r)
  unfold Collect.routineSites at ok ⊢
  obtain ⟨_, _, ok⟩ := bindOk.mp ok
  obtain ⟨_, legal, ok⟩ := bindOk.mp ok
  obtain ⟨result, walked, last⟩ := bindOk.mp ok
  rw [params, declaringId, declaringBody]
  refine bindOk.mpr ⟨(), lenientClauses lenient _ _, bindOk.mpr ⟨(), legal, bindOk.mpr ⟨result, ?_, last⟩⟩⟩
  exact Collect.blockEventsAlike alike walked fun _ _ => trivial

theorem declaringGraph {g : CallGraph} (built : CallGraph.ofProgram program h = .ok g) :
    CallGraph.ofProgram (program.declaring id category kinds) h = .ok g := by
  obtain ⟨distinct, globals, walked⟩ := CallGraph.ofProgramOk.mp built
  refine CallGraph.ofProgramOk.mpr ⟨by rw [declaringNames]; exact distinct, globals, ?_⟩
  unfold Program.declaring
  rw [List.forall₂_map_left_iff]
  exact walked.imp fun r s ok => declaringSites lenient ok

end Lenient

theorem Program.unitRootTracked (p : Program) (options : Hierarchy.Options) (category : Category) :
    ((p.kindHierarchies options).get category).isTracked
      ((p.kindHierarchies options).get category).root = true := by
  have bare : (Hierarchy.ofRoot category (Hierarchy.builtinRoot category)).root ∉
      (Hierarchy.ofRoot category (Hierarchy.builtinRoot category)).untracked := NameSet.notMemEmpty _
  have clean : (p.kindHierarchy category).root ∉ (p.kindHierarchy category).untracked :=
    Hierarchy.declareRoot (Hierarchy.declareRoot bare)
  have top : (p.kindHierarchy category).parent? (p.kindHierarchy category).root = none :=
    Hierarchy.declareTop (Hierarchy.builtinTop category {})
  cases category with
  | raises => exact Hierarchy.rootTracked top clean
  | tags => exact Hierarchy.rootTracked top clean

theorem EffectSet.ofKindsToKindList {h : Hierarchy} (tracked : h.isTracked h.root = true)
    {set : EffectSet} (normal : set.Normal h) : ofKinds h (set.toKindList h) = set := by
  cases set with
  | known kinds => exact normalizedSame normal
  | unknown =>
    rw [← holdsAnything]
    exact ofKindsHolds.mpr ⟨h.root, List.mem_singleton.mpr rfl, tracked, .inl rfl⟩

theorem EffectSet.uncoveredSelf (h : Hierarchy) (set : EffectSet) :
    (set.uncoveredBy h set).isEmpty = true := by
  cases set with
  | unknown => rfl
  | known kinds =>
    have all : ∀ kind ∈ kinds.toList, covers h kinds kind = true := fun kind member =>
      List.any_eq_true.mpr ⟨kind, member, Hierarchy.coveredSelf kind⟩
    simp only [uncoveredBy, isEmpty, NameSet.isEmpty, NameSet.filter, List.isEmpty_iff,
      List.filter_eq_nil_iff]
    intro kind member
    simp [all kind member]

def CategoryEffects.pinned (e : CategoryEffects) : CategoryEffects := { e with declared := true }

def CategoryEffects.freed (set : EffectSet) (_ : CategoryEffects) : CategoryEffects := .ofInferred set

namespace RoutineEffects

theorem getUpdate (e : RoutineEffects) (category other : Category)
    (f : CategoryEffects → CategoryEffects) :
    (e.update category f).get other = if other = category then f (e.get other) else e.get other := by
  cases category <;> cases other <;> rfl

theorem updateFlags (e : RoutineEffects) (category : Category) (f : CategoryEffects → CategoryEffects) :
    (e.update category f).routine = e.routine ∧ (e.update category f).analyzed = e.analyzed ∧
      (e.update category f).dispatched = e.dispatched := by
  cases category <;> exact ⟨rfl, rfl, rfl⟩

theorem leUpdate {a b e : RoutineEffects} (below : a ≤ e)
    (flags : b.routine = a.routine ∧ b.analyzed = a.analyzed ∧ b.dispatched = a.dispatched)
    {f : CategoryEffects → CategoryEffects} (here : b.get category ≤ f (e.get category))
    (elsewhere : ∀ other, other ≠ category → b.get other = a.get other) : b ≤ e.update category f := by
  obtain ⟨name, analyzed, dispatched⟩ := flags
  obtain ⟨name', analyzed', dispatched'⟩ := e.updateFlags category f
  have sets (other : Category) : b.get other ≤ (e.update category f).get other := by
    rw [getUpdate]
    by_cases same : other = category
    · rw [if_pos same, same]
      exact here
    · rw [if_neg same, elsewhere other same]
      exact getLe below other
  exact ⟨name.trans (below.1.trans name'.symm), sets .raises, sets .tags,
    analyzed.trans (below.2.2.2.1.trans analyzed'.symm),
    dispatched.trans (below.2.2.2.2.trans dispatched'.symm)⟩

end RoutineEffects

namespace EffectTable

def updateAt (t : EffectTable) (id : RoutineId) (category : Category)
    (f : CategoryEffects → CategoryEffects) : EffectTable :=
  t.modify id (·.update category f)

variable {t : EffectTable} {f : CategoryEffects → CategoryEffects}

theorem updateAtOther {x : RoutineId} (other : x ≠ id) :
    (t.updateAt id category f).get? x = t.get? x := by
  unfold updateAt
  rw [getModify, if_neg other]

theorem updateAtOwn {e : RoutineEffects} (found : t.get? id = some e) :
    (t.updateAt id category f).get? id = some (e.update category f) := by
  unfold updateAt
  rw [getModify, if_pos rfl, found]
  rfl

theorem updateAtInferred {e : RoutineEffects} (found : t.get? id = some e) (category : Category)
    (x : RoutineId) (other : Category) :
    (t.updateAt id category f).inferred x other =
      if x = id ∧ other = category then (f (e.get category)).inferred else t.inferred x other := by
  by_cases same : x = id
  · subst same
    rw [inferredOfGet (updateAtOwn found), RoutineEffects.getUpdate, inferredOfGet found]
    by_cases here : other = category
    · simp [here]
    · simp [here]
  · rw [if_neg (fun both => same both.1)]
    unfold inferred
    rw [updateAtOther same]

theorem updateAtResolved {e : RoutineEffects} (found : t.get? id = some e)
    (keeps : (f (e.get category)).resolved = (e.get category).resolved) (x : RoutineId)
    (other : Category) : (t.updateAt id category f).resolved x other = t.resolved x other := by
  unfold resolved
  by_cases same : x = id
  · subst same
    rw [updateAtOwn found, found]
    dsimp only
    rw [RoutineEffects.getUpdate]
    by_cases here : other = category
    · rw [if_pos here, here, keeps]
    · rw [if_neg here]
  · rw [updateAtOther same]

theorem updateAtReference {e : RoutineEffects} (found : t.get? id = some e)
    (keeps : (f (e.get category)).resolved = (e.get category).resolved) (static : e.dispatched = false)
    (x : RoutineId) (other : Category) :
    (t.updateAt id category f).referenceSet x other = t.referenceSet x other := by
  have seen := updateAtResolved found keeps x other
  by_cases same : x = id
  · subst same
    unfold resolved at seen
    unfold referenceSet RoutineEffects.referenceSet
    rw [updateAtOwn found, found] at seen ⊢
    simpa [(RoutineEffects.updateFlags e category f).2.2, static] using seen
  · unfold referenceSet
    rw [updateAtOther same]

theorem pinnedInferred {e : RoutineEffects} (found : t.get? id = some e) (category : Category)
    (x : RoutineId) (other : Category) :
    (t.updateAt id category .pinned).inferred x other = t.inferred x other := by
  rw [updateAtInferred found category]
  split
  · next here =>
    rw [here.1, here.2, inferredOfGet found]
    rfl
  · rfl

theorem pinnedResolved {e : RoutineEffects} (found : t.get? id = some e) (category : Category)
    (x : RoutineId) (other : Category) :
    (t.updateAt id category .pinned).resolved x other = t.resolved x other :=
  updateAtResolved found rfl x other

theorem pinnedReference {e : RoutineEffects} (found : t.get? id = some e) (static : e.dispatched = false)
    (category : Category) (x : RoutineId) (other : Category) :
    (t.updateAt id category .pinned).referenceSet x other = t.referenceSet x other :=
  updateAtReference found rfl static x other

theorem freedResolved {e : RoutineEffects} (found : t.get? id = some e) {set : EffectSet}
    (seen : (e.get category).resolved = set) (x : RoutineId) (other : Category) :
    (t.updateAt id category (.freed set)).resolved x other = t.resolved x other :=
  updateAtResolved found seen.symm x other

theorem freedReference {e : RoutineEffects} (found : t.get? id = some e) {set : EffectSet}
    (seen : (e.get category).resolved = set) (static : e.dispatched = false) (x : RoutineId)
    (other : Category) :
    (t.updateAt id category (.freed set)).referenceSet x other = t.referenceSet x other :=
  updateAtReference found seen.symm static x other

end EffectTable

namespace Inference

def copied (i : Setting) (id : RoutineId) (category : Category) (kinds : List Kind) : Setting :=
  { i with program := i.program.declaring id category kinds }

variable {i : Setting}

theorem seedRoutineGet (r : Routine) (category : Category) :
    (seedRoutine i r).get category = seedCategory i r category := by
  cases category <;> rfl

theorem seedElsewhere (r : Routine) {other : Category} (different : other ≠ category) :
    seedCategory (copied i id category kinds) (r.declaring category kinds) other =
      seedCategory i r other := by
  have clause : (r.declaring category kinds).declared other = r.declared other := by
    rw [declaringDeclared, if_neg different]
  have body : (r.declaring category kinds).hasBody = r.hasBody := rfl
  have published : publishedSet? (copied i id category kinds) (r.declaring category kinds) other =
      publishedSet? i r other := by
    unfold publishedSet?
    rw [clause]
    rfl
  unfold seedCategory
  rw [clause, body, published]
  rfl

theorem seedDeclaring (r : Routine) :
    seedCategory (copied i id category kinds) (r.declaring category kinds) category =
      { resolved := .ofKinds (i.hierarchies.get category) kinds
        inferred := if r.hasBody then ∅ else .ofKinds (i.hierarchies.get category) kinds
        declared := true } := by
  have clause : (r.declaring category kinds).declared category = some kinds := by
    rw [declaringDeclared, if_pos rfl]
  unfold seedCategory
  rw [clause]
  rfl

/- The list says what was found for a routine that declares nothing, and the unit builds with the list
as it does without. -/
structure Spells (i : Setting) (r : Routine) (category : Category) (kinds : List Kind) : Prop where
  listed : r ∈ i.program.routines
  free : r.declared category = none
  static : r.kind.isDispatched = false
  built : CallGraph.ofProgram i.program i.hierarchies = .ok i.graph
  rebuilt : CallGraph.ofProgram (i.program.declaring r.id category kinds) i.hierarchies = .ok i.graph
  found : .ofKinds (i.hierarchies.get category) kinds = (run i).table.inferred r.id category

variable {r : Routine}

theorem seedOtherRoutine (spells : Spells i r category kinds) {x : RoutineId} (other : x ≠ r.id) :
    (seed (copied i r.id category kinds)).get? x = (seed i).get? x := by
  have distinct := (CallGraph.ofProgramOk.mp spells.built).1
  have found : (copied i r.id category kinds).program.routine? x = i.program.routine? x := by
    unfold copied
    rw [declaringRoutine]
    cases there : i.program.routine? x with
    | none => rfl
    | some old =>
      have name : old.id = x := ((routineFound distinct).mp there).2
      rw [Option.map_some, declaringOther (fun same => other (name.symm.trans same))]
  have after := seedGet (i := copied i r.id category kinds) (CallGraph.ofProgramOk.mp spells.rebuilt).1 x
  rw [after, seedGet distinct, found]
  rfl

theorem seedOwnRoutine (spells : Spells i r category kinds) :
    (seed i).get? r.id = some (seedRoutine i r) ∧
      (seed (copied i r.id category kinds)).get? r.id =
        some (seedRoutine (copied i r.id category kinds) (r.declaring category kinds)) := by
  have distinct := (CallGraph.ofProgramOk.mp spells.built).1
  have here := (routineFound distinct).mpr ⟨spells.listed, rfl⟩
  have there : (copied i r.id category kinds).program.routine? r.id =
      some (r.declaring category kinds) := by
    unfold copied
    rw [declaringRoutine, here, Option.map_some, declaringOwn rfl]
  have after := seedGet (i := copied i r.id category kinds) (CallGraph.ofProgramOk.mp spells.rebuilt).1
    r.id
  rw [after, seedGet distinct, here, there]
  exact ⟨rfl, rfl⟩

theorem declaringCases (spells : Spells i r category kinds) {r' : Routine}
    (member : r' ∈ (i.program.declaring r.id category kinds).routines) :
    r' = r.declaring category kinds ∨ r' ∈ i.program.routines ∧ r'.id ≠ r.id := by
  obtain ⟨old, there, rfl⟩ := List.mem_map.mp member
  by_cases own : old.id = r.id
  · rw [CallGraph.routineUnique spells.built there spells.listed own]
    exact .inl (declaringOwn rfl)
  · rw [declaringOther own]
    exact .inr ⟨there, own⟩

theorem declaringListed (spells : Spells i r category kinds) :
    r.declaring category kinds ∈ (i.program.declaring r.id category kinds).routines :=
  List.mem_map.mpr ⟨r, spells.listed, declaringOwn rfl⟩

theorem freeEntry (spells : Spells i r category kinds) :
    ∃ e, (run i).table.get? r.id = some e ∧ EntryShape i r e ∧
      e.get category = .ofInferred ((run i).table.inferred r.id category) := by
  obtain ⟨e, found, entry⟩ := (runShaped spells.built).entry r spells.listed
  refine ⟨e, found, entry, ?_⟩
  have shape := entry.category category
  have plain : (e.get category).declared = false := by rw [shape.declared, spells.free]; rfl
  have settled := shape.settled spells.free
  rw [EffectTable.inferredOfGet found]
  cases both : e.get category with
  | mk resolved inferred declared =>
    rw [both] at plain settled
    dsimp only at plain settled
    rw [plain, settled]
    rfl

theorem declaredEntry (spells : Spells i r category kinds) :
    ∃ e, (run (copied i r.id category kinds)).table.get? r.id = some e ∧
      EntryShape (copied i r.id category kinds) (r.declaring category kinds) e ∧
      (e.get category).resolved = (run i).table.inferred r.id category := by
  obtain ⟨e, found, entry⟩ :=
    (runShaped (i := copied i r.id category kinds) spells.rebuilt).entry _ (declaringListed spells)
  have clause : (r.declaring category kinds).declared category = some kinds := by
    rw [declaringDeclared, if_pos rfl]
  exact ⟨e, found, entry, ((entry.category category).final kinds clause).trans spells.found⟩

theorem solvesPinned (spells : Spells i r category kinds) :
    Solves (copied i r.id category kinds) ((run i).table.updateAt r.id category .pinned) := by
  obtain ⟨e, found, entry, sets⟩ := freeEntry spells
  have old := runSolves spells.built
  have resolved := EffectTable.pinnedResolved found category
  have references := EffectTable.pinnedReference found
    (entry.dispatched.trans spells.static) category
  have inferred := EffectTable.pinnedInferred found category
  refine ⟨?_, ?_, ?_, ?_⟩
  · intro x
    have start := seedLeRun spells.built x
    by_cases own : x = r.id
    · obtain ⟨first, next⟩ := seedOwnRoutine spells
      rw [own, first, found] at start
      rw [own, next, EffectTable.updateAtOwn found]
      cases start with
      | some below =>
        refine .some ?_
        apply RoutineEffects.leUpdate below
        · exact ⟨rfl, rfl, rfl⟩
        · rw [seedRoutineGet, seedDeclaring, sets, spells.found]
          refine ⟨le_rfl, ?_, rfl⟩
          dsimp only
          split
          · exact EffectSet.emptyLe _
          · exact le_rfl
        · intro other here
          rw [seedRoutineGet, seedElsewhere r here, seedRoutineGet]
    · rw [seedOtherRoutine spells own, EffectTable.updateAtOther own]
      exact start
  · intro r' member other none
    rw [resolved, inferred]
    rcases declaringCases spells member with rfl | ⟨there, _⟩
    · rw [declaringDeclared] at none
      split at none
      · contradiction
      · exact old.undeclared r spells.listed other none
    · exact old.undeclared r' there other none
  · intro r' member other listed given
    rw [resolved]
    rcases declaringCases spells member with rfl | ⟨there, _⟩
    · rw [declaringDeclared] at given
      split at given
      · next here =>
        cases given
        rw [here]
        exact (old.undeclared r spells.listed category spells.free).trans spells.found.symm
      · exact old.declared r spells.listed other listed given
    · exact old.declared r' there other listed given
  · intro r' member body sites visited other
    rw [inferred, Contribution.accumulateSame references]
    rcases declaringCases spells member with rfl | ⟨there, _⟩
    · exact old.rule r spells.listed body sites visited other
    · exact old.rule r' there body sites visited other

/- The table found with the list, with the list taken out again and what was found without it in its
place. -/
theorem solvesFreed (spells : Spells i r category kinds)
    (done : (run (copied i r.id category kinds)).metrics.converged = true) :
    Solves i ((run (copied i r.id category kinds)).table.updateAt r.id category
      (.freed ((run i).table.inferred r.id category))) := by
  obtain ⟨e, found, _, sets⟩ := freeEntry spells
  obtain ⟨e', found', entry', seen⟩ := declaredEntry spells
  have new := runSolves (i := copied i r.id category kinds) spells.rebuilt
  have resolved := EffectTable.freedResolved found' seen
  have references := EffectTable.freedReference found' seen (entry'.dispatched.trans spells.static)
  have inferred := EffectTable.updateAtInferred found'
    (f := .freed ((run i).table.inferred r.id category)) category
  -- the second run stays below the first one, so the routine keeps within what was found for it
  have below : (run (copied i r.id category kinds)).table.inferred r.id category ≤
      (run i).table.inferred r.id category := by
    rw [← EffectTable.pinnedInferred found category]
    exact EffectTable.inferredLe (convergedLe (i := copied i r.id category kinds) spells.rebuilt done
      (solvesPinned spells)) r.id category
  have kept (r' : Routine) (there : r' ∈ i.program.routines) (own : r'.id ≠ r.id) :
      r' ∈ (i.program.declaring r.id category kinds).routines :=
    List.mem_map.mpr ⟨r', there, declaringOther own⟩
  have renewed := declaringListed spells
  have clause (other : Category) (different : other ≠ category) :
      (r.declaring category kinds).declared other = r.declared other := by
    rw [declaringDeclared, if_neg different]
  refine ⟨?_, ?_, ?_, ?_⟩
  · intro x
    have start := seedLeRun (i := copied i r.id category kinds) spells.rebuilt x
    by_cases own : x = r.id
    · obtain ⟨first, next⟩ := seedOwnRoutine spells
      rw [own, next, found'] at start
      rw [own, first, EffectTable.updateAtOwn found']
      have before := seedLeRun spells.built r.id
      rw [first, found] at before
      cases start with
      | some smaller =>
        cases before with
        | some early =>
          refine .some ?_
          apply RoutineEffects.leUpdate smaller
          · exact ⟨rfl, rfl, rfl⟩
          · have part := RoutineEffects.getLe early category
            rw [sets] at part
            exact part
          · intro other here
            rw [seedRoutineGet, seedRoutineGet, seedElsewhere r here]
    · rw [EffectTable.updateAtOther own, ← seedOtherRoutine spells own]
      exact start
  · intro r' there other none
    rw [resolved, inferred]
    by_cases own : r'.id = r.id
    · obtain rfl := CallGraph.routineUnique spells.built there spells.listed own
      by_cases here : other = category
      · rw [if_pos ⟨rfl, here⟩, here]
        simp only [EffectTable.resolved, found']
        exact seen
      · rw [if_neg (fun both => here both.2)]
        exact new.undeclared _ renewed other ((clause other here).trans none)
    · rw [if_neg (fun both => own both.1)]
      exact new.undeclared r' (kept r' there own) other none
  · intro r' there other listed given
    rw [resolved]
    by_cases own : r'.id = r.id
    · obtain rfl := CallGraph.routineUnique spells.built there spells.listed own
      have here : other ≠ category := by
        rintro rfl
        rw [spells.free] at given
        contradiction
      exact new.declared _ renewed other listed ((clause other here).trans given)
    · exact new.declared r' (kept r' there own) other listed given
  · intro r' there body sites visited other
    rw [inferred, Contribution.accumulateSame references]
    by_cases own : r'.id = r.id
    · obtain rfl := CallGraph.routineUnique spells.built there spells.listed own
      have rule := new.rule _ renewed body sites visited other
      by_cases here : other = category
      · rw [if_pos ⟨rfl, here⟩]
        rw [here] at rule ⊢
        exact rule.trans below
      · rw [if_neg (fun both => here both.2)]
        exact rule
    · rw [if_neg (fun both => own both.1)]
      exact new.rule r' (kept r' there own) body sites visited other

section Converged

variable (spells : Spells i r category kinds) (done : (run i).metrics.converged = true)
  (done' : (run (copied i r.id category kinds)).metrics.converged = true)
include spells done done'

theorem copiedResolved (x : RoutineId) (other : Category) :
    (run (copied i r.id category kinds)).table.resolved x other = (run i).table.resolved x other := by
  obtain ⟨e, found, _, _⟩ := freeEntry spells
  obtain ⟨e', found', _, seen⟩ := declaredEntry spells
  have above := convergedLe (i := copied i r.id category kinds) spells.rebuilt done' (solvesPinned spells)
  have back := convergedLe spells.built done (solvesFreed spells done')
  apply le_antisymm
  · rw [← EffectTable.pinnedResolved found category]
    exact EffectTable.resolvedLe above x other
  · rw [← EffectTable.freedResolved found' seen]
    exact EffectTable.resolvedLe back x other

theorem copiedReference (x : RoutineId) (other : Category) :
    (run (copied i r.id category kinds)).table.referenceSet x other =
      (run i).table.referenceSet x other := by
  obtain ⟨e, found, entry, _⟩ := freeEntry spells
  obtain ⟨e', found', entry', seen⟩ := declaredEntry spells
  have above := convergedLe (i := copied i r.id category kinds) spells.rebuilt done' (solvesPinned spells)
  have back := convergedLe spells.built done (solvesFreed spells done')
  apply le_antisymm
  · rw [← EffectTable.pinnedReference found (entry.dispatched.trans spells.static) category]
    exact EffectTable.referenceSetLe above x other
  · rw [← EffectTable.freedReference found' seen (entry'.dispatched.trans spells.static)]
    exact EffectTable.referenceSetLe back x other

theorem copiedOwnInferred :
    (run i).table.inferred r.id category ≤
      (run (copied i r.id category kinds)).table.inferred r.id category := by
  obtain ⟨e', found', entry', seen⟩ := declaredEntry spells
  cases body : r.hasBody with
  | true =>
    obtain ⟨sites, found, _⟩ := CallGraph.sitesOfRoutine spells.built spells.listed
    have exact' := convergedExact spells.built done
      ((visited spells.built (v := (r.id, sites))).mpr ⟨r, spells.listed, rfl, body, found⟩) category
    refine exact'.trans ?_
    dsimp only
    rw [← Contribution.accumulateSame (copiedReference spells done done')]
    exact runRule (i := copied i r.id category kinds) spells.rebuilt (declaringListed spells) body found
      category
  | false =>
    have fixed := (entry'.category category).bodiless body
    rw [EffectTable.inferredOfGet found', fixed, seedDeclaring, spells.found, body]
    exact le_rfl

theorem copiedInferred (x : RoutineId) (other : Category) :
    (run (copied i r.id category kinds)).table.inferred x other = (run i).table.inferred x other := by
  obtain ⟨e, found, _, _⟩ := freeEntry spells
  obtain ⟨e', found', _, _⟩ := declaredEntry spells
  have above := convergedLe (i := copied i r.id category kinds) spells.rebuilt done' (solvesPinned spells)
  have back := convergedLe spells.built done (solvesFreed spells done')
  apply le_antisymm
  · rw [← EffectTable.pinnedInferred found category]
    exact EffectTable.inferredLe above x other
  · have larger := EffectTable.inferredLe back x other
    rw [EffectTable.updateAtInferred found'] at larger
    split at larger
    · next here =>
      rw [here.1, here.2]
      exact copiedOwnInferred spells done done'
    · exact larger

theorem copiedTable : (run (copied i r.id category kinds)).table =
    (run i).table.updateAt r.id category .pinned := by
  obtain ⟨e, found, _, _⟩ := freeEntry spells
  have resolved := EffectTable.pinnedResolved found category
  have inferred := EffectTable.pinnedInferred found category
  have above := convergedLe (i := copied i r.id category kinds) spells.rebuilt done' (solvesPinned spells)
  refine le_antisymm above ?_
  intro x
  cases there : (run (copied i r.id category kinds)).table.get? x with
  | none =>
    rw [EffectTable.noneOfLe above there]
    exact .none
  | some e' =>
    obtain ⟨e'', first, smaller⟩ := EffectTable.someOfLe above there
    rw [first]
    have sets (other : Category) : e''.get other ≤ e'.get other := by
      have seen := (copiedResolved spells done done' x other).trans (resolved x other).symm
      have met := (copiedInferred spells done done' x other).trans (inferred x other).symm
      rw [EffectTable.inferredOfGet there, EffectTable.inferredOfGet first] at met
      simp only [EffectTable.resolved, there, first] at seen
      exact ⟨seen.ge, met.ge, (RoutineEffects.getLe smaller other).2.2.symm⟩
    exact .some ⟨smaller.1.symm, sets .raises, sets .tags, smaller.2.2.2.1.symm, smaller.2.2.2.2.symm⟩

end Converged
end Inference

def Violation.declaration? : Violation → Option (RoutineId × Category)
  | .explicitEmpty routine category _ _ => some (routine, category)
  | .undeclaredEffect routine category _ _ => some (routine, category)
  | .incompatibleBinding .. => none
  | .forbiddenTag .. => none

theorem declaredAbout {h : Hierarchies} {r : Routine} {effects : RoutineEffects} {v : Violation}
    (member : v ∈ Assignability.checkDeclared h r effects category) :
    v.declaration? = some (r.id, category) ∧ r.declared category ≠ none := by
  unfold Assignability.checkDeclared at member
  split at member
  · simp at member
  · next kinds given =>
    rw [given]
    dsimp only at member
    split at member
    · simp at member
    · split at member
      · rw [List.mem_singleton.mp member]
        exact ⟨rfl, by simp⟩
      · rw [List.mem_singleton.mp member]
        exact ⟨rfl, by simp⟩

theorem bindingAbout {h : Hierarchies} {t : EffectTable} {site : Site.Binding} {v : Violation}
    (member : v ∈ Assignability.checkBinding h t id site) : v.declaration? = none := by
  have one {other : Category} {set : EffectSet}
      (inside : v ∈ Assignability.bindingViolation h id site other set) : v.declaration? = none := by
    unfold Assignability.bindingViolation at inside
    split at inside
    · simp at inside
    · rw [List.mem_singleton.mp inside]
      rfl
  rcases List.mem_append.mp member with missing | forbidden
  · obtain ⟨other, _, inside⟩ := List.mem_flatMap.mp missing
    exact one inside
  · exact one forbidden

theorem violatedIsDeclared {h : Hierarchies} {t : EffectTable} {g : CallGraph} {v : Violation}
    (member : v ∈ Assignability.checkProgram h t program g)
    (about : v.declaration? = some (id, category)) :
    ∃ r ∈ program.routines, r.id = id ∧ r.declared category ≠ none := by
  obtain ⟨r, listed, own⟩ := List.mem_flatMap.mp member
  refine ⟨r, listed, ?_⟩
  rcases List.mem_append.mp own with declaration | binding
  · unfold Assignability.checkDeclaration at declaration
    split at declaration
    · simp at declaration
    · split at declaration
      · rcases List.mem_append.mp declaration with declared | forbidden
        · obtain ⟨other, _, inside⟩ := List.mem_flatMap.mp declared
          obtain ⟨what, given⟩ := declaredAbout inside
          rw [about] at what
          cases what
          exact ⟨rfl, given⟩
        · unfold Assignability.checkForbidden at forbidden
          dsimp only at forbidden
          split at forbidden
          · simp at forbidden
          · rw [List.mem_singleton.mp forbidden] at about
            contradiction
      · simp at declaration
  · obtain ⟨site, _, inside⟩ := List.mem_flatMap.mp binding
    rw [bindingAbout inside] at about
    contradiction

section Analyses

open Inference

variable {i : Setting} {r : Routine} (spells : Spells i r category kinds)
  (done : (run i).metrics.converged = true)
  (done' : (run (copied i r.id category kinds)).metrics.converged = true)
include spells done done'

theorem copiedDeclaration :
    Assignability.checkDeclaration i.hierarchies (run (copied i r.id category kinds)).table
        (r.declaring category kinds) =
      Assignability.checkDeclaration i.hierarchies (run i).table r := by
  obtain ⟨e, found, entry, sets⟩ := freeEntry spells
  have found' : (run (copied i r.id category kinds)).table.get? r.id =
      some (e.update category .pinned) := by
    rw [copiedTable spells done done', EffectTable.updateAtOwn found]
  have each : Assignability.checkDeclared i.hierarchies (r.declaring category kinds)
      (e.update category .pinned) = Assignability.checkDeclared i.hierarchies r e := by
    funext other
    unfold Assignability.checkDeclared
    rw [declaringDeclared, RoutineEffects.getUpdate]
    by_cases here : other = category
    · rw [if_pos here, if_pos here, here, sets, spells.free]
      simp [CategoryEffects.pinned, CategoryEffects.ofInferred, EffectSet.uncoveredSelf]
    · rw [if_neg here, if_neg here]
      rfl
  have forbidden : Assignability.checkForbidden i.hierarchies (r.declaring category kinds)
      (e.update category .pinned) = Assignability.checkForbidden i.hierarchies r e := by
    have tags : (e.update category .pinned).tags.inferred = e.tags.inferred := by
      cases category <;> rfl
    unfold Assignability.checkForbidden
    rw [tags, declaringForbids]
    rfl
  have analyzed : (e.update category .pinned).analyzed = e.analyzed :=
    (e.updateFlags category .pinned).2.1
  have name : (r.declaring category kinds).id = r.id := rfl
  unfold Assignability.checkDeclaration
  rw [name, found', found]
  dsimp only
  rw [analyzed, forbidden, each]

theorem copiedViolations :
    Assignability.checkProgram i.hierarchies (run (copied i r.id category kinds)).table
        (i.program.declaring r.id category kinds) i.graph =
      Assignability.checkProgram i.hierarchies (run i).table i.program i.graph := by
  have references := copiedReference spells done done'
  change (i.program.routines.map (·.declaringAs r.id category kinds)).flatMap
      (ownViolations i.hierarchies (run (copied i r.id category kinds)).table i.graph) =
    i.program.routines.flatMap (ownViolations i.hierarchies (run i).table i.graph)
  rw [List.flatMap_map]
  apply List.flatMap_congr
  intro old there
  by_cases own : old.id = r.id
  · obtain rfl := CallGraph.routineUnique spells.built there spells.listed own
    rw [declaringOwn rfl]
    unfold ownViolations
    rw [copiedDeclaration spells done done', bindingsSame references]
    rfl
  · rw [declaringOther own]
    refine ownViolationsSame ?_ rfl references
    rw [copiedTable spells done done', EffectTable.updateAtOther own]

end Analyses

theorem copiedSpells (config : Config) (registry : Registry) {g : CallGraph}
    (loose : config.strictKinds = false)
    (built : CallGraph.ofProgram program (program.kindHierarchies config.hierarchyOptions) = .ok g)
    {r : Routine} (listed : r ∈ program.routines) (static : r.kind ≠ .method)
    (free : r.declared category = none)
    (written : ((Inference.run (inferenceOf config registry program
      (program.kindHierarchies config.hierarchyOptions) g)).table.inferred r.id category).toKindList
        (program.kindHierarchy category) = kinds) :
    Inference.Spells (inferenceOf config registry program
      (program.kindHierarchies config.hierarchyOptions) g) r category kinds where
  listed := listed
  free := free
  static := by simpa [RoutineKind.isDispatched] using static
  built := built
  rebuilt := by
    refine declaringGraph ?_ built
    intro category kind strict
    have contrary : config.strictKinds = true := by cases category <;> exact strict
    rw [loose] at contrary
    contradiction
  found := by
    obtain ⟨e, found, _⟩ := (Inference.runShaped (i := inferenceOf config registry program
      (program.kindHierarchies config.hierarchyOptions) g) built).entry r listed
    have normal := (Inference.runNormal (i := inferenceOf config registry program
      (program.kindHierarchies config.hierarchyOptions) g) built r.id e found category).2
    have root : (program.kindHierarchy category).root =
        ((program.kindHierarchies config.hierarchyOptions).get category).root := by
      cases category <;> rfl
    rw [← written, EffectTable.inferredOfGet found]
    have spelling := EffectSet.ofKindsToKindList
      (program.unitRootTracked config.hierarchyOptions category) normal
    unfold EffectSet.toKindList at spelling ⊢
    rw [root]
    exact spelling

theorem copiedSignatureChangesNothing {config : Config} {registry : Registry} {program : Program}
    (loose : config.strictKinds = false) (auto : config.maxPasses = 0)
    (fits : program.bodyCount < Config.countLimit) {a : UnitResult}
    (ok : analyze config registry program = .ok a) {r : Routine} (listed : r ∈ program.routines)
    (static : r.kind ≠ .method) {category : Category} (free : r.declared category = none) :
    ∃ b, analyze config registry (program.declaring r.id category
          ((a.table.inferred r.id category).toKindList (program.kindHierarchy category))) = .ok b ∧
      (∀ id other, b.table.resolved id other = a.table.resolved id other ∧
        b.table.inferred id other = a.table.inferred id other) ∧
      b.violations = a.violations ∧
      ∀ v ∈ b.violations, v.declaration? ≠ some (r.id, category) := by
  obtain ⟨h, g, valid, made, built, rfl⟩ := analyzeOk.mp ok
  obtain ⟨rfl, _, _⟩ := Program.hierarchiesOk.mp made
  generalize written : ((concluded config registry program _ g).table.inferred r.id category).toKindList
    (program.kindHierarchy category) = kinds
  have spells := copiedSpells config registry loose built listed static free written
  have done := Inference.derivedBoundConverges spells.built auto fits
  have fits' : (program.declaring r.id category kinds).bodyCount < Config.countLimit := by
    rw [declaringBodies]
    exact fits
  have done' := Inference.derivedBoundConverges
    (i := Inference.copied (inferenceOf config registry program _ g) r.id category kinds) spells.rebuilt
    auto fits'
  have same := copiedViolations spells done done'
  refine ⟨concluded config registry (program.declaring r.id category kinds) _ g,
    analyzeOk.mpr ⟨_, g, valid, made, spells.rebuilt, rfl⟩, ?_, ?_, ?_⟩
  · intro id other
    exact ⟨Inference.copiedResolved spells done done' id other,
      Inference.copiedInferred spells done done' id other⟩
  · exact same
  · intro v member about
    have before := Eq.mp (congrArg (v ∈ ·) same) member
    obtain ⟨old, there, own, given⟩ := violatedIsDeclared before about
    rw [CallGraph.routineUnique built there listed own] at given
    exact given free

/- `load` and `retry` call each other, so pinning `load` cuts the cycle that found its set. -/
theorem retryLoopCopied :
    ∃ a b, analyze (.ofPreset .permissive) {} Inference.retryLoop = .ok a ∧
      (a.table.inferred "load" .raises).toKindList (Inference.retryLoop.kindHierarchy .raises) =
        ["IOError", "Timeout"] ∧
      analyze (.ofPreset .permissive) {}
        (Inference.retryLoop.declaring "load" .raises ["IOError", "Timeout"]) = .ok b ∧
      b.table.inferred "retry" .raises = a.table.inferred "retry" .raises ∧
      b.violations = a.violations := by
  obtain ⟨a, ok, inferred⟩ : ∃ a, analyze (.ofPreset .permissive) {} Inference.retryLoop = .ok a ∧
      (a.table.inferred "load" .raises).toKindList (Inference.retryLoop.kindHierarchy .raises) =
        ["IOError", "Timeout"] :=
    ⟨concluded _ _ _ .builtin Inference.retrySetting.graph,
      analyzeOk.mpr ⟨_, _, rfl, by decide +kernel, by decide +kernel, rfl⟩, by decide +kernel⟩
  let load := Inference.retryLoop.routines.get ⟨0, by decide⟩
  have free : load.declared .raises = none := rfl
  obtain ⟨b, ok', same, violations, _⟩ := copiedSignatureChangesNothing rfl rfl (by decide) ok
    (List.get_mem Inference.retryLoop.routines ⟨0, by decide⟩) (by decide) free
  rw [show load.id = "load" from rfl, inferred] at ok'
  exact ⟨a, b, ok, inferred, ok', (same "retry" .raises).2, violations⟩

end EffectAudit
