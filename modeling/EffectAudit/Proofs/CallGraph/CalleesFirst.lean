import Mathlib.Data.List.Sort
import EffectAudit.Proofs.CallGraph.Built
import EffectAudit.Proofs.CallGraph.Components
/-! The groups of a call graph, by routine name: a group holds the routines that call each other, and a
group comes after every group that one of its routines calls into. -/
namespace EffectAudit.CallGraph

def Calls (g : CallGraph) (caller callee : RoutineId) : Prop :=
  callee ∈ g.declarationOrder ∧ ∃ routine ∈ g.sites, routine.routine = caller ∧
    ∃ site ∈ routine.edges, site.target.routine? = some callee

abbrev Reaches (g : CallGraph) : RoutineId → RoutineId → Prop := Relation.ReflTransGen g.Calls

theorem callerListed {g : CallGraph} {caller callee : RoutineId} (call : g.Calls caller callee) :
    caller ∈ g.declarationOrder := by
  obtain ⟨_, routine, listed, rfl, _⟩ := call
  exact List.mem_map_of_mem listed

section Distinct

variable {g : CallGraph} (distinct : g.declarationOrder.Nodup)
include distinct

theorem callsIff {node next : Nat} {caller callee : RoutineId}
    (first : g.declarationOrder[node]? = some caller) (second : g.declarationOrder[next]? = some callee) :
    g.Calls caller callee ↔ next ∈ g.leads node := by
  rw [leadsIff, successorIff]
  constructor
  · rintro ⟨_, routine, listed, rfl, site, member, target⟩
    refine ⟨(labelOf first).1, routine, listed, (nodeNamed distinct).mpr first, site, member, ?_⟩
    rw [target]
    exact (nodeNamed distinct).mpr second
  · rintro ⟨_, routine, listed, known, site, member, found⟩
    obtain ⟨id, target, there⟩ := Option.bind_eq_some_iff.mp found
    have own := (nodeNamed distinct).mp known
    have other := (nodeNamed distinct).mp there
    cases first.symm.trans own
    cases second.symm.trans other
    exact ⟨List.mem_of_getElem? second, routine, listed, rfl, site, member, target⟩

theorem reachesIff {a b : Nat} {first second : RoutineId}
    (start : g.declarationOrder[a]? = some first) (stop : g.declarationOrder[b]? = some second) :
    g.Reaches first second ↔ Components.Reaches g.leads a b := by
  constructor
  · intro path
    induction path generalizing b with
    | refl =>
      have inside := (List.getElem?_eq_some_iff.mp start).1
      rw [(List.getElem?_inj inside distinct).mp (start.trans stop.symm)]
    | tail _ call ih =>
      obtain ⟨middle, entry⟩ := List.mem_iff_getElem?.mp (callerListed call)
      exact (ih entry).tail ((callsIff distinct entry stop).mp call)
  · intro path
    induction path generalizing second with
    | refl =>
      cases start.symm.trans stop
      exact .refl
    | tail _ edge ih =>
      have entry := labelled (leadsIff.mp edge).1
      exact (ih entry).tail ((callsIff distinct entry stop).mpr edge)

theorem componentsListOnce : g.components.flatten.Perm g.declarationOrder := by
  refine (List.perm_ext_iff_of_nodup (orderDistinct distinct) distinct).mpr ?_
  intro id
  refine ⟨?_, everyRoutineOrdered g⟩
  intro ordered
  obtain ⟨component, listed, member⟩ := List.mem_flatten.mp ordered
  rw [componentsNamed] at listed
  obtain ⟨nodes, there, rfl⟩ := List.mem_map.mp listed
  obtain ⟨node, own, rfl⟩ := List.mem_map.mp member
  have small := (Components.componentsDistinct g.leadsWithin).2 node
    (List.mem_flatten.mpr ⟨nodes, there, own⟩)
  exact List.mem_of_getElem? (labelled small)

theorem memberIff {nodes : List Nat} (listed : nodes ∈ Components.components g.size g.leads) {a : Nat}
    {id : RoutineId} (entry : g.declarationOrder[a]? = some id) : id ∈ nodes.map g.label ↔ a ∈ nodes := by
  obtain ⟨small, name⟩ := labelOf entry
  rw [List.mem_map]
  constructor
  · rintro ⟨node, member, same⟩
    have inside := (Components.componentsDistinct g.leadsWithin).2 node
      (List.mem_flatten.mpr ⟨nodes, listed, member⟩)
    rwa [labelInjective distinct small inside (name.trans same.symm)]
  · exact fun member => ⟨a, member, name⟩

theorem componentsConnected {first second : RoutineId} (one : first ∈ g.declarationOrder)
    (two : second ∈ g.declarationOrder) :
    (∃ component ∈ g.components, first ∈ component ∧ second ∈ component) ↔
      g.Reaches first second ∧ g.Reaches second first := by
  obtain ⟨a, start⟩ := List.mem_iff_getElem?.mp one
  obtain ⟨b, stop⟩ := List.mem_iff_getElem?.mp two
  rw [reachesIff distinct start stop, reachesIff distinct stop start,
    ← Components.sameComponent g.leadsWithin (labelOf start).1, componentsNamed]
  constructor
  · rintro ⟨component, listed, left, right⟩
    obtain ⟨nodes, there, rfl⟩ := List.mem_map.mp listed
    exact ⟨nodes, there, (memberIff distinct there start).mp left,
      (memberIff distinct there stop).mp right⟩
  · rintro ⟨nodes, there, left, right⟩
    exact ⟨_, List.mem_map_of_mem there, (memberIff distinct there start).mpr left,
      (memberIff distinct there stop).mpr right⟩

theorem calleesEarlier {i j : Nat} {callers callees : List RoutineId} {caller callee : RoutineId}
    (first : g.components[i]? = some callers) (own : caller ∈ callers)
    (second : g.components[j]? = some callees) (other : callee ∈ callees)
    (call : g.Calls caller callee) : j ≤ i := by
  rw [componentsNamed, List.getElem?_map] at first second
  obtain ⟨above, placeAbove, rfl⟩ := Option.map_eq_some_iff.mp first
  obtain ⟨below, placeBelow, rfl⟩ := Option.map_eq_some_iff.mp second
  obtain ⟨a, start⟩ := List.mem_iff_getElem?.mp (callerListed call)
  obtain ⟨b, stop⟩ := List.mem_iff_getElem?.mp call.1
  exact Components.successorEarlier g.leadsWithin placeAbove
    ((memberIff distinct (List.mem_of_getElem? placeAbove) start).mp own) placeBelow
    ((memberIff distinct (List.mem_of_getElem? placeBelow) stop).mp other)
    ((callsIff distinct start stop).mp call)

end Distinct

theorem componentDeclarationOrder {g : CallGraph} {component : List RoutineId}
    (listed : component ∈ g.components) :
    component ≠ [] ∧ component.Sublist g.declarationOrder := by
  rw [componentsNamed] at listed
  obtain ⟨nodes, there, rfl⟩ := List.mem_map.mp listed
  obtain ⟨inhabited, increasing⟩ := Components.componentIncreasing g.leadsWithin there
  have few : nodes ⊆ List.range g.size := by
    intro node member
    exact List.mem_range.mpr ((Components.componentsDistinct g.leadsWithin).2 node
      (List.mem_flatten.mpr ⟨nodes, there, member⟩))
  have numbers : nodes.Sublist (List.range g.size) :=
    List.sublist_of_subperm_of_pairwise
      (List.subperm_of_subset (increasing.imp Nat.ne_of_lt) few) (increasing.imp Nat.le_of_lt)
      (List.pairwise_lt_range.imp Nat.le_of_lt)
  have names : (List.range g.size).map g.label = g.declarationOrder := by
    apply List.ext_getElem?
    intro node
    by_cases small : node < g.size
    · rw [labelled small, List.getElem?_map, List.getElem?_range small]
      rfl
    · have outside : g.declarationOrder.length ≤ node := by
        simpa [declarationOrder, size] using small
      rw [List.getElem?_eq_none outside, List.getElem?_eq_none (by simpa using small)]
  refine ⟨by simpa using inhabited, ?_⟩
  rw [← names]
  exact numbers.map g.label

/- Each routine is in one group, with those that it reaches and that reach it, and its calls lead into
its own group or an earlier one. -/
theorem componentsCalleesFirst {g : CallGraph} (distinct : g.declarationOrder.Nodup) :
    g.components.flatten.Perm g.declarationOrder ∧
      (∀ a ∈ g.declarationOrder, ∀ b ∈ g.declarationOrder,
        ((∃ component ∈ g.components, a ∈ component ∧ b ∈ component) ↔
          g.Reaches a b ∧ g.Reaches b a)) ∧
      (∀ (i j : Nat) (callers callees : List RoutineId) (a b : RoutineId),
        g.components[i]? = some callers → a ∈ callers → g.components[j]? = some callees →
        b ∈ callees → g.Calls a b → i ≠ j → j < i) ∧
      ∀ component ∈ g.components, component ≠ [] ∧ component.Sublist g.declarationOrder := by
  refine ⟨componentsListOnce distinct, ?_, ?_, ?_⟩
  · intro a first b second
    exact componentsConnected distinct first second
  · intro i j callers callees a b above own below other call differ
    exact Nat.lt_of_le_of_ne (calleesEarlier distinct above own below other call) (Ne.symm differ)
  · intro component listed
    exact componentDeclarationOrder listed

def retryGraph : CallGraph :=
  ⟨[{ routine := "main"
      edges := [
        ⟨0, .mention, .routine "load", {}, .zero⟩,
        ⟨1, .indirectLocal, .binding "step" {} (some "load"), {}, .zero⟩,
        ⟨2, .direct, .routine "print", {}, .zero⟩] },
    { routine := "load"
      edges := [
        ⟨0, .direct, .routine "load", {}, .zero⟩, ⟨1, .direct, .routine "retry", {}, .zero⟩,
        ⟨2, .direct, .routine "retry", {}, .zero⟩] },
    { routine := "log" },
    { routine := "retry"
      edges := [⟨0, .direct, .routine "log", {}, .zero⟩, ⟨1, .direct, .routine "load", {}, .zero⟩] }]⟩

theorem retryGraphGroups :
    retryGraph.components.flatten.Perm ["main", "load", "log", "retry"] ∧
      (∃ component ∈ retryGraph.components, "load" ∈ component ∧ "retry" ∈ component) ∧
      ¬∃ component ∈ retryGraph.components, "main" ∈ component ∧ "load" ∈ component := by
  obtain ⟨once, connected, _⟩ := componentsCalleesFirst (g := retryGraph) (by decide)
  have out : retryGraph.Calls "load" "retry" := by
    unfold Calls
    decide
  have back : retryGraph.Calls "retry" "load" := by
    unfold Calls
    decide
  have nobody : ∀ routine ∈ retryGraph.sites, ∀ site ∈ routine.edges,
      site.target.routine? ≠ some "main" := by decide
  refine ⟨once, ?_, ?_⟩
  · exact (connected "load" (by decide) "retry" (by decide)).mpr ⟨.single out, .single back⟩
  · intro together
    obtain ⟨_, path⟩ := (connected "main" (by decide) "load" (by decide)).mp together
    rcases Relation.ReflTransGen.cases_tail path with same | ⟨caller, _, call⟩
    · exact absurd same (by decide)
    · obtain ⟨_, routine, listed, _, site, member, target⟩ := call
      exact nobody routine listed site member target

end EffectAudit.CallGraph
