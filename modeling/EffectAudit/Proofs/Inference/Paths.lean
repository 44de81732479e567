import EffectAudit.Proofs.Inference.Chains
/-! Call paths. A path leaves a routine along references to transparent routines and ends at a site
that contributes by itself: a raise, or a reference to anything that inference leaves as it is. It is
written down without regard to what travels along it, as the contexts of its sites and what the last
of them contributes. A run that converges infers exactly what some path brings past the handlers
around its sites. -/
namespace EffectAudit.Inference

inductive CallPath (i : Setting) (category : Category) :
    RoutineId → List Site.Context → EffectSet → Prop where
  | raise {id sites site} (found : i.graph.sites? id = some sites) (raises : category = .raises)
      (listed : site ∈ sites.raises) :
      CallPath i category id [site.context] (Contribution.ofRaise i.hierarchies site)
  | edge {id sites site} (found : i.graph.sites? id = some sites) (listed : site ∈ sites.edges)
      (fixed : ∀ callee, site.subject? category = some callee → ¬Transparent i category callee) :
      CallPath i category id [site.context]
        (Contribution.ofEdge i.hierarchies (run i).table category site)
  | onward {id sites site callee contexts set} (found : i.graph.sites? id = some sites)
      (listed : site ∈ sites.edges) (subject : site.subject? category = some callee)
      (transparent : Transparent i category callee) (rest : CallPath i category callee contexts set) :
      CallPath i category id (site.context :: contexts) set

variable {i : Setting} {category : Category}

def Brings (i : Setting) (category : Category) (x : Item) (id : RoutineId) : Prop :=
  ∃ contexts set, CallPath i category id contexts set ∧ set.Holds x ∧
    ∀ context ∈ contexts, x.Escapes i.hierarchies .all category context

theorem chainOfPath (built : CallGraph.ofProgram i.program i.hierarchies = .ok i.graph)
    {id : RoutineId} {contexts : List Site.Context} {set : EffectSet} {x : Item}
    (path : CallPath i category id contexts set) (held : set.Holds x)
    (escapes : ∀ context ∈ contexts, x.Escapes i.hierarchies .all category context) :
    ∃ length, Chain i category x length id := by
  induction path with
  | raise found raises listed =>
    exact ⟨1, .inl (.raise _ _ found raises listed held (escapes _ (List.mem_cons_self ..)))⟩
  | edge found listed fixed =>
    rw [fixedEdge (CallGraph.ofProgramOk.mp built).1 (runShaped built) fixed] at held
    exact ⟨1, .inl (.edge _ _ found listed fixed held (escapes _ (List.mem_cons_self ..)))⟩
  | onward found listed subject transparent rest ih =>
    obtain ⟨length, chain⟩ := ih held fun context later => escapes context (List.mem_cons_of_mem _ later)
    have first := escapes _ (List.mem_cons_self ..)
    exact ⟨length + 1, .inr ⟨_, ⟨_, _, found, listed, subject, transparent, first⟩, chain⟩⟩

theorem pathOfChain (built : CallGraph.ofProgram i.program i.hierarchies = .ok i.graph) {x : Item}
    {length : Nat} {id : RoutineId} (chain : Chain i category x length id) :
    Brings i category x id := by
  induction length generalizing id with
  | zero => exact chain.elim
  | succ length ih =>
    rcases chain with source | ⟨callee, ⟨sites, site, found, listed, subject, transparent, first⟩, rest⟩
    · cases source with
      | raise sites site found raises listed held escapes =>
        exact ⟨_, _, .raise found raises listed, held, by simpa using escapes⟩
      | edge sites site found listed fixed held escapes =>
        rw [← fixedEdge (CallGraph.ofProgramOk.mp built).1 (runShaped built) fixed] at held
        exact ⟨_, _, .edge found listed fixed, held, by simpa using escapes⟩
    · obtain ⟨contexts, set, path, held, escapes⟩ := ih rest
      refine ⟨site.context :: contexts, set, .onward found listed subject transparent path, held, ?_⟩
      exact List.forall_mem_cons.mpr ⟨first, escapes⟩

theorem quietComplete (built : CallGraph.ofProgram i.program i.hierarchies = .ok i.graph)
    {t : EffectTable} (shape : Shaped i t) (quiet : Quiet i.hierarchies (runVisits i) t)
    (length : Nat) : Complete i length t := by
  induction length with
  | zero => exact fun _ _ _ chain => chain.elim
  | succ length ih =>
    have further := passComplete built shape ih
    rwa [passSame quiet] at further

theorem convergedSound (built : CallGraph.ofProgram i.program i.hierarchies = .ok i.graph)
    (done : (run i).metrics.converged = true) : Sound i (run i).table := by
  have both : Shaped i (run i).table ∧ Sound i (run i).table := by
    apply convergedInvariant (P := fun t => Shaped i t ∧ Sound i t) (seedSettled built) rfl done
    · rintro t v member ⟨shape, sound⟩
      exact ⟨visitShaped shape fun r listed name => visitedBody built member listed name,
        visitSound built shape sound member⟩
    · exact ⟨seedShaped (CallGraph.ofProgramOk.mp built).1, seedSound built⟩
  exact both.2

theorem inferredBrought (built : CallGraph.ofProgram i.program i.hierarchies = .ok i.graph)
    (done : (run i).metrics.converged = true) {r : Routine} (listed : r ∈ i.program.routines)
    (body : r.hasBody = true) (category : Category) (x : Item) :
    ((run i).table.inferred r.id category).Holds x ↔
      ∃ y, Brings i category y r.id ∧ y.Yields x := by
  obtain ⟨sites, found, _⟩ := CallGraph.sitesOfRoutine built listed
  have member := (visited built (v := (r.id, sites))).mpr ⟨r, listed, rfl, body, found⟩
  constructor
  · intro held
    obtain ⟨y, length, chain, yields⟩ := convergedSound built done _ member category x held
    exact ⟨y, pathOfChain built chain, yields⟩
  · rintro ⟨y, ⟨contexts, set, path, held, escapes⟩, yields⟩
    obtain ⟨length, chain⟩ := chainOfPath built path held escapes
    have there := quietComplete built (runShaped built) (runQuiet built) length category y r.id chain
    rcases yields with rfl | rfl
    · exact EffectSet.holdsOfAnything there x
    · exact there

theorem bringsAnything {id : RoutineId} :
    Brings i category .anything id ↔
      ∃ contexts, CallPath i category id contexts .unknown ∧
        (category = .raises → ∀ context ∈ contexts, ∀ g ∈ context.guards, g.coverage ≠ .all) := by
  constructor
  · rintro ⟨contexts, set, path, held, escapes⟩
    rw [EffectSet.holdsAnything] at held
    subst held
    refine ⟨contexts, path, ?_⟩
    intro raises context inside g around
    exact Coverage.anythingLet.mp (escapes context inside raises g around rfl)
  · rintro ⟨contexts, path, free⟩
    refine ⟨contexts, .unknown, path, trivial, ?_⟩
    intro context inside raises g around _
    exact Coverage.anythingLet.mpr (free raises context inside g around)

theorem bringsKind {id : RoutineId} {kind : Kind} (known : ¬Brings i category .anything id) :
    Brings i category (.kind kind) id ↔
      ∃ contexts kinds, CallPath i category id contexts (.known kinds) ∧ kind ∈ kinds ∧
        (category = .raises → ∀ context ∈ contexts, ∀ g ∈ context.guards,
          g.coverage.covers i.hierarchies.raises kind = false) := by
  constructor
  · rintro ⟨contexts, set, path, held, escapes⟩
    cases set with
    | unknown =>
      exact absurd ⟨contexts, .unknown, path, trivial,
        fun context inside => Item.anythingEscapes (escapes context inside)⟩ known
    | known kinds =>
      refine ⟨contexts, kinds, path, held, ?_⟩
      intro raises context inside g around
      exact Coverage.kindLet.mp (escapes context inside raises g around rfl)
  · rintro ⟨contexts, kinds, path, member, free⟩
    refine ⟨contexts, .known kinds, path, member, ?_⟩
    intro context inside raises g around _
    exact Coverage.kindLet.mpr (free raises context inside g around)

/- What is inferred is what call paths deliver, no less and no more. -/
theorem inferredAlongCallPaths (built : CallGraph.ofProgram i.program i.hierarchies = .ok i.graph)
    (done : (run i).metrics.converged = true) {r : Routine} (listed : r ∈ i.program.routines)
    (body : r.hasBody = true) (category : Category) :
    ((run i).table.inferred r.id category = .unknown ↔
      ∃ contexts, CallPath i category r.id contexts .unknown ∧
        (category = .raises → ∀ context ∈ contexts, ∀ g ∈ context.guards, g.coverage ≠ .all)) ∧
    ∀ kinds, (run i).table.inferred r.id category = .known kinds → ∀ kind, kind ∈ kinds ↔
      ∃ contexts own, CallPath i category r.id contexts (.known own) ∧ kind ∈ own ∧
        (category = .raises → ∀ context ∈ contexts, ∀ g ∈ context.guards,
          g.coverage.covers i.hierarchies.raises kind = false) := by
  have anything : (run i).table.inferred r.id category = .unknown ↔
      Brings i category .anything r.id := by
    rw [← EffectSet.holdsAnything, inferredBrought built done listed body]
    simp [Item.Yields]
  refine ⟨anything.trans bringsAnything, ?_⟩
  intro kinds same kind
  have known : ¬Brings i category .anything r.id := by
    rw [← anything, same]
    simp
  have brought := inferredBrought built done listed body category (.kind kind)
  rw [same, EffectSet.knownHoldsKind] at brought
  rw [brought, ← bringsKind known]
  constructor
  · rintro ⟨y, brings, rfl | rfl⟩
    · exact absurd brings known
    · exact brings
  · intro brings
    exact ⟨.kind kind, brings, .inr rfl⟩

theorem retryLoopTimeoutPath :
    ∃ r ∈ retryLoop.routines, r.id = "load" ∧ r.hasBody = true ∧
      (run retrySetting).table.inferred r.id .raises = .known (.ofList ["IOError", "Timeout"]) ∧
      ∃ contexts own, CallPath retrySetting .raises r.id contexts (.known own) ∧ "Timeout" ∈ own ∧
        ∀ context ∈ contexts, ∀ g ∈ context.guards,
          g.coverage.covers retrySetting.hierarchies.raises "Timeout" = false := by
  have inferred : (run retrySetting).table.inferred "load" .raises =
      .known (.ofList ["IOError", "Timeout"]) := by decide +kernel
  have paths := inferredAlongCallPaths (i := retrySetting) (by decide +kernel) (by decide +kernel)
    (List.get_mem retryLoop.routines ⟨0, by decide⟩) rfl .raises
  obtain ⟨contexts, own, path, member, free⟩ := (paths.2 _ inferred "Timeout").mp (by decide)
  exact ⟨_, List.get_mem retryLoop.routines ⟨0, by decide⟩, rfl, rfl, inferred,
    contexts, own, path, member, free rfl⟩

end EffectAudit.Inference
