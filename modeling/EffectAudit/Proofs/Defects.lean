import EffectAudit.Proofs.Inference.LeastSolution
import EffectAudit.Proofs.Strictness
/-! When the analysis of a unit fails. Without strictness it fails on a cycle among the kinds, on a
routine that is listed twice and on a routine that is named and not listed; strictness adds the kinds
that are mentioned and not known. Nothing else makes it fail, wherever in the unit it stands, and a
strict analysis that succeeds gives what the other one gives. -/
namespace EffectAudit
namespace Program

def mentions (p : Program) : List (Category × Kind) :=
  Category.all.flatMap (fun category =>
      (p.kindDecls category).filterMap fun decl => decl.parent.map (Prod.mk category)) ++
    (p.globals.flatMap (·.type.effects.mentions) ++ p.routines.flatMap (·.mentions))

structure WellFormed (p : Program) : Prop where
  acyclic : ∀ category, (p.kindHierarchy category).Acyclic
  distinct : (p.routines.map (·.id)).Nodup
  listed : ∀ r ∈ p.routines, ∀ id ∈ r.references, id ∈ p.routines.map (·.id)

def KindsKnown (p : Program) : Prop :=
  ∀ m ∈ p.mentions, (p.kindHierarchy m.1).contains m.2 = true

variable {p : Program}

theorem listedIff {h : Hierarchies} {r : Routine} {id : RoutineId} :
    Collect.Listed ⟨p, h, r⟩ id ↔ id ∈ p.routines.map (·.id) := by
  unfold Collect.Listed routine?
  rw [← Option.isSome_iff_exists, List.find?_isSome, List.mem_map]
  simp

theorem permitsIff {options : Hierarchy.Options} {category : Category} {kind : Kind} :
    ((p.kindHierarchies options).get category).Permits kind ↔
      (options.strictKinds = true → (p.kindHierarchy category).contains kind = true) := by
  cases category <;> exact Iff.rfl

theorem mentionsPermitted (options : Hierarchy.Options) :
    (∀ m ∈ p.mentions, ((p.kindHierarchies options).get m.1).Permits m.2) ↔
      (options.strictKinds = true → p.KindsKnown) := by
  simp only [permitsIff, KindsKnown]
  constructor
  · intro all strict m mentioned
    exact all m mentioned strict
  · intro all m mentioned strict
    exact all strict m mentioned

theorem forallMentions {P : Category × Kind → Prop} :
    (∀ m ∈ p.mentions, P m) ↔
      (∀ category, ∀ decl ∈ p.kindDecls category, ∀ parent, decl.parent = some parent →
        P (category, parent)) ∧
      (∀ v ∈ p.globals, ∀ m ∈ v.type.effects.mentions, P m) ∧
      ∀ r ∈ p.routines, ∀ m ∈ r.mentions, P m := by
  rw [mentions, List.forall_mem_append, List.forall_mem_append, List.forall_mem_flatMap,
    List.forall_mem_flatMap, List.forall_mem_flatMap]
  refine and_congr_left' ?_
  constructor
  · intro all category decl member parent above
    exact all category (by cases category <;> simp [Category.all]) (category, parent)
      (List.mem_filterMap.mpr ⟨decl, member, by rw [above]; rfl⟩)
  · intro all category _ m mentioned
    obtain ⟨decl, member, found⟩ := List.mem_filterMap.mp mentioned
    obtain ⟨parent, above, same⟩ := Option.map_eq_some_iff.mp found
    rw [← same]
    exact all category decl member parent above

end Program

theorem graphBuildsIff {p : Program} {h : Hierarchies} :
    Succeeds (CallGraph.ofProgram p h) ↔ (p.routines.map (·.id)).Nodup ∧
      (∀ v ∈ p.globals, ∀ m ∈ v.type.effects.mentions, (h.get m.1).Permits m.2) ∧
      ∀ r ∈ p.routines, Collect.Legal ⟨p, h, r⟩ r.mentions r.references := by
  constructor
  · intro given
    obtain ⟨g, built⟩ := given
    obtain ⟨distinct, globals, _⟩ := CallGraph.ofProgramOk.mp built
    refine ⟨distinct, ?_, ?_⟩
    · intro v member
      exact (Collect.checkClausesLegal ..).mp (succeedsUnit.mpr (globals v member))
    · intro r member
      obtain ⟨sites, _, walked⟩ := CallGraph.sitesOfRoutine built member
      exact (Collect.routineSitesLegal p h r).mp ⟨sites, walked⟩
  · intro given
    obtain ⟨distinct, globals, routines⟩ := given
    refine CallGraph.builds distinct ?_ ?_
    · intro v member
      exact succeedsUnit.mp ((Collect.checkClausesLegal ..).mpr (globals v member))
    · intro r member
      exact (Collect.routineSitesLegal p h r).mpr (routines r member)

theorem analyzeSucceeds (config : Config) (registry : Registry) (p : Program)
    (inRange : config.maxPasses ≤ Config.passesLimit) :
    Succeeds (analyze config registry p) ↔
      p.WellFormed ∧ (config.strictKinds = true → p.KindsKnown) := by
  have valid : config.check = .ok () := by
    unfold Config.check Config.validate
    rw [if_neg (Nat.not_lt.mpr inRange)]
    rfl
  have known : _ ↔ (config.strictKinds = true → p.KindsKnown) :=
    Program.mentionsPermitted config.hierarchyOptions
  rw [← known, Program.forallMentions]
  constructor
  · intro given
    obtain ⟨result, ok⟩ := given
    obtain ⟨h, g, _, made, built, _⟩ := analyzeOk.mp ok
    obtain ⟨rfl, acyclic, parents⟩ := Program.hierarchiesOk.mp made
    obtain ⟨distinct, globals, routines⟩ := graphBuildsIff.mp ⟨g, built⟩
    refine ⟨⟨acyclic, distinct, ?_⟩, parents, globals, fun r member => (routines r member).kinds⟩
    intro r member id named
    exact Program.listedIff.mp ((routines r member).routines id named)
  · intro given
    obtain ⟨formed, parents, globals, routines⟩ := given
    have made := Program.hierarchiesOk.mpr ⟨rfl, formed.acyclic, parents⟩
    have legal : ∀ r ∈ p.routines, Collect.Legal ⟨p, p.kindHierarchies config.hierarchyOptions, r⟩
        r.mentions r.references := by
      intro r member
      refine ⟨routines r member, ?_⟩
      intro id named
      exact Program.listedIff.mpr (formed.listed r member id named)
    obtain ⟨g, built⟩ := graphBuildsIff.mpr ⟨formed.distinct, globals, legal⟩
    exact ⟨_, analyzeOk.mpr ⟨_, g, valid, made, built, rfl⟩⟩

/- A strict analysis that succeeds has asked nothing that the other one would have answered
differently. -/
theorem analyzeLenient (config : Config) {registry : Registry} {p : Program} {result : UnitResult}
    (ok : analyze config registry p = .ok result) : analyze config.lenient registry p = .ok result := by
  obtain ⟨h, g, valid, made, built, rfl⟩ := analyzeOk.mp ok
  obtain ⟨rfl, acyclic, parents⟩ := Program.hierarchiesOk.mp made
  have relaxed : p.hierarchies config.lenient.hierarchyOptions =
      .ok (p.kindHierarchies config.hierarchyOptions).lenient := by
    refine Program.hierarchiesOk.mpr ⟨rfl, acyclic, ?_⟩
    intro category _ _ _ _
    exact Program.permitsIff.mpr (fun strict => Bool.noConfusion strict)
  refine analyzeOk.mpr ⟨_, g, valid, relaxed, ?_, ?_⟩
  · exact lenientOfProgram built
  · exact (lenientConcluded ..).symm

theorem failsExactlyOnDefects (config : Config) (registry : Registry) (p : Program)
    (inRange : config.maxPasses ≤ Config.passesLimit) :
    ((∃ result, analyze { config with strictKinds := false } registry p = .ok result) ↔
      p.WellFormed) ∧
    ((∃ result, analyze { config with strictKinds := true } registry p = .ok result) ↔
      p.WellFormed ∧ p.KindsKnown) ∧
    ∀ result, analyze { config with strictKinds := true } registry p = .ok result →
      analyze { config with strictKinds := false } registry p = .ok result := by
  have loose := analyzeSucceeds { config with strictKinds := false } registry p inRange
  have strict := analyzeSucceeds { config with strictKinds := true } registry p inRange
  refine ⟨?_, ?_, fun result ok => analyzeLenient { config with strictKinds := true } ok⟩
  · simpa [Succeeds] using loose
  · simpa [Succeeds] using strict

theorem retryLoopOnlyLoose :
    (Config.ofPreset .permissive).maxPasses ≤ Config.passesLimit ∧ Inference.retryLoop.WellFormed ∧
      ¬∃ result, analyze { Config.ofPreset .permissive with strictKinds := true } {} Inference.retryLoop =
        .ok result := by
  have outcome := failsExactlyOnDefects (.ofPreset .permissive) {} Inference.retryLoop (by decide)
  have unknown : ¬Inference.retryLoop.KindsKnown := by
    intro known
    have contained := known (.raises, "Timeout") (by decide +kernel)
    revert contained
    decide +kernel
  refine ⟨by decide, outcome.1.mp ?_, fun ok => unknown (outcome.2.1.mp ok).2⟩
  exact succeedsIsOk.mpr (by decide +kernel)

end EffectAudit
