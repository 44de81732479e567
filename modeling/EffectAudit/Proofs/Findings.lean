import EffectAudit.Proofs.Analysis
import EffectAudit.Proofs.Propagation
/-! Findings belong to routines. The violations and reports of one routine are found from its own
declaration, its own sites and its own entry, and otherwise only from what references stand for. -/
namespace EffectAudit

theorem filterOwned {α β : Type} {key : α → String} {tag : β → String} {f : α → List β}
    (owned : ∀ a, ∀ b ∈ f a, tag b = key a) (l : List α) (name : String) :
    (l.flatMap f).filter (tag · == name) = (l.filter (key · == name)).flatMap f := by
  induction l with
  | nil => rfl
  | cons a rest ih =>
    rw [List.flatMap_cons, List.filter_append, ih, List.filter_cons]
    by_cases here : key a = name
    · have kept : (f a).filter (tag · == name) = f a := by
        rw [List.filter_eq_self]
        intro b member
        simp [owned a b member, here]
      rw [kept, if_pos (by simpa using here), List.flatMap_cons]
    · have dropped : (f a).filter (tag · == name) = [] := by
        rw [List.filter_eq_nil_iff]
        intro b member
        simp [owned a b member, here]
      rw [dropped, if_neg (by simpa using here), List.nil_append]

theorem filterDistinct {α : Type} {key : α → String} {l : List α} (distinct : (l.map key).Nodup)
    (name : String) : l.filter (key · == name) = (l.find? (key · == name)).toList := by
  induction l with
  | nil => rfl
  | cons a rest ih =>
    rw [List.map_cons, List.nodup_cons] at distinct
    rw [List.filter_cons, List.find?_cons]
    cases here : key a == name with
    | false => exact ih distinct.2
    | true =>
      have none : rest.filter (key · == name) = [] := by
        rw [List.filter_eq_nil_iff]
        intro b member same
        have twice : key b = key a := (beq_iff_eq.mp same).trans (beq_iff_eq.mp here).symm
        exact distinct.1 (twice ▸ List.mem_map_of_mem member)
      rw [if_pos rfl, none]
      rfl

theorem declarationOwner {h : Hierarchies} {t : EffectTable} {r : Routine} {v : Violation}
    (member : v ∈ Assignability.checkDeclaration h t r) : v.routine = r.id := by
  unfold Assignability.checkDeclaration at member
  split at member
  · simp at member
  · split at member
    · rcases List.mem_append.mp member with declared | forbidden
      · obtain ⟨category, _, inside⟩ := List.mem_flatMap.mp declared
        unfold Assignability.checkDeclared at inside
        split at inside
        · simp at inside
        · dsimp only at inside
          split at inside
          · simp at inside
          · split at inside
            · rw [List.mem_singleton.mp inside]
              rfl
            · rw [List.mem_singleton.mp inside]
              rfl
      · unfold Assignability.checkForbidden at forbidden
        dsimp only at forbidden
        split at forbidden
        · simp at forbidden
        · rw [List.mem_singleton.mp forbidden]
          rfl
    · simp at member

theorem bindingOwner {h : Hierarchies} {t : EffectTable} {id : RoutineId} {site : Site.Binding}
    {v : Violation} (member : v ∈ Assignability.checkBinding h t id site) : v.routine = id := by
  have one {category : Category} {kinds : EffectSet}
      (inside : v ∈ Assignability.bindingViolation h id site category kinds) : v.routine = id := by
    unfold Assignability.bindingViolation at inside
    split at inside
    · simp at inside
    · rw [List.mem_singleton.mp inside]
      rfl
  rcases List.mem_append.mp member with missing | forbidden
  · obtain ⟨category, _, inside⟩ := List.mem_flatMap.mp missing
    exact one inside
  · exact one forbidden

def ownViolations (h : Hierarchies) (t : EffectTable) (g : CallGraph) (r : Routine) : List Violation :=
  Assignability.checkDeclaration h t r ++
    (((g.sites? r.id).map (·.bindings)).getD []).flatMap (Assignability.checkBinding h t r.id)

def ownReports (h : Hierarchies) (t : EffectTable) (sites : RoutineSites) : List EffectReport :=
  sites.markers.map (EffectReport.ofMarker h t sites)

section Concluded

variable {config : Config} {registry : Registry} {program : Program} {h : Hierarchies} {g : CallGraph}
  (built : CallGraph.ofProgram program h = .ok g)
include built

theorem concludedViolations (id : RoutineId) :
    (concluded config registry program h g).violations.filter (·.routine == id) =
      (program.routine? id).toList.flatMap
        (ownViolations h (concluded config registry program h g).table g) := by
  have owner : ∀ r : Routine, ∀ v ∈ ownViolations h (concluded config registry program h g).table g r,
      v.routine = r.id := by
    intro r v member
    rcases List.mem_append.mp member with declaration | binding
    · exact declarationOwner declaration
    · obtain ⟨site, _, inside⟩ := List.mem_flatMap.mp binding
      exact bindingOwner inside
  have parts := filterOwned owner program.routines id
  rw [filterDistinct (CallGraph.ofProgramOk.mp built).1] at parts
  exact parts

theorem concludedReports (id : RoutineId) :
    (concluded config registry program h g).reports.filter (·.routine == id) =
      if config.reportMarkers then
        (g.sites? id).toList.flatMap (ownReports h (concluded config registry program h g).table)
      else [] := by
  have owner : ∀ s : RoutineSites, ∀ report ∈
      ownReports h (concluded config registry program h g).table s, report.routine = s.routine := by
    intro s report member
    obtain ⟨marker, _, rfl⟩ := List.mem_map.mp member
    rfl
  have parts := filterOwned owner g.sites id
  have distinct := CallGraph.builtDistinct built
  have found : g.sites.find? (·.routine == id) = g.sites? id := by
    apply Option.ext
    intro s
    rw [CallGraph.sitesOfName distinct]
    exact foundByKey distinct
  rw [filterDistinct distinct, found] at parts
  unfold concluded
  dsimp only
  split
  · exact parts
  · rfl

end Concluded

theorem Contribution.accumulateSame {h : Hierarchies} {t t' : EffectTable}
    (references : ∀ id category, t.referenceSet id category = t'.referenceSet id category)
    (sites : RoutineSites) (category : Category) (filter : SiteFilter) :
    accumulate h t sites category filter = accumulate h t' sites category filter :=
  le_antisymm (accumulateLeAt fun _ _ id _ => (references id category).le)
    (accumulateLeAt fun _ _ id _ => (references id category).ge)

theorem ownReportsSame {h : Hierarchies} {t t' : EffectTable}
    (references : ∀ id category, t.referenceSet id category = t'.referenceSet id category) :
    ownReports h t = ownReports h t' := by
  funext sites
  unfold ownReports EffectReport.ofMarker
  simp only [Contribution.accumulateSame references]

theorem bindingsSame {h : Hierarchies} {t t' : EffectTable}
    (references : ∀ id category, t.referenceSet id category = t'.referenceSet id category) :
    Assignability.checkBinding h t = Assignability.checkBinding h t' := by
  have source : Assignability.sourceSet h t = Assignability.sourceSet h t' := by
    funext value category
    cases value with
    | routine id => exact references id category
    | proc name type => rfl
  funext id site
  unfold Assignability.checkBinding Assignability.missingKinds Assignability.forbiddenKinds
  rw [source]

theorem ownViolationsSame {h : Hierarchies} {t t' : EffectTable} {g g' : CallGraph} {r : Routine}
    (entry : t.get? r.id = t'.get? r.id) (sites : g.sites? r.id = g'.sites? r.id)
    (references : ∀ id category, t.referenceSet id category = t'.referenceSet id category) :
    ownViolations h t g r = ownViolations h t' g' r := by
  unfold ownViolations Assignability.checkDeclaration
  rw [entry, sites, bindingsSame references]

end EffectAudit
