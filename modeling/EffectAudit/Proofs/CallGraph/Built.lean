import Mathlib.Data.List.Forall2
import Mathlib.Data.List.Nodup
import EffectAudit.CallGraph
import EffectAudit.Proofs.CallGraph.Search
/-! What a call graph that builds says about its unit: routine names are distinct, every routine has
one entry holding its own sites, and both visit orders contain every routine. -/
namespace EffectAudit

theorem bindOk {ε α β : Type} {x : Except ε α} {f : α → Except ε β} {result : β} :
    (x >>= f) = .ok result ↔ ∃ a, x = .ok a ∧ f a = .ok result := by
  cases x with
  | error e => simp [bind, Except.bind]
  | ok a => simp [bind, Except.bind]

theorem mapMOk {ε α β : Type} {f : α → Except ε β} {inputs : List α} {outputs : List β} :
    inputs.mapM f = .ok outputs ↔ List.Forall₂ (fun a b => f a = .ok b) inputs outputs := by
  induction inputs generalizing outputs with
  | nil => simp [pure, Except.pure, eq_comm]
  | cons first rest ih =>
    rw [List.mapM_cons, List.forall₂_cons_left_iff, bindOk]
    constructor
    · rintro ⟨b, one, more⟩
      obtain ⟨others, all, last⟩ := bindOk.mp more
      exact ⟨b, others, one, ih.mp all, (Except.ok.inj last).symm⟩
    · rintro ⟨b, others, one, all, rfl⟩
      exact ⟨b, one, bindOk.mpr ⟨others, ih.mpr all, rfl⟩⟩

theorem forMOk {ε α : Type} {f : α → Except ε Unit} {inputs : List α} :
    inputs.forM f = .ok () ↔ ∀ a ∈ inputs, f a = .ok () := by
  induction inputs with
  | nil => simp [pure, Except.pure]
  | cons first rest ih =>
    have both : (first :: rest).forM f = (f first >>= fun _ => rest.forM f) := rfl
    rw [both, bindOk, List.forall_mem_cons]
    constructor
    · rintro ⟨⟨⟩, one, all⟩
      exact ⟨one, ih.mp all⟩
    · rintro ⟨one, all⟩
      exact ⟨(), one, ih.mpr all⟩

section Related

variable {α β γ δ : Type} {R : α → β → Prop} {left : List α} {right : List β}

theorem relatedMember (all : List.Forall₂ R left right) {a : α} (member : a ∈ left) :
    ∃ b ∈ right, R a b := by
  induction all with
  | nil => simp at member
  | cons one _ ih =>
    rcases List.mem_cons.mp member with rfl | later
    · exact ⟨_, List.mem_cons_self .., one⟩
    · obtain ⟨b, there, related⟩ := ih later
      exact ⟨b, List.mem_cons_of_mem _ there, related⟩

theorem relatedAt (all : List.Forall₂ R left right) (index : Nat) :
    Option.Rel R left[index]? right[index]? := by
  induction all generalizing index with
  | nil => exact .none
  | cons one _ ih =>
    cases index with
    | zero => exact .some one
    | succ index => exact ih index

theorem relatedMap (all : List.Forall₂ R left right) {f : α → γ} {k : β → γ}
    (same : ∀ a b, R a b → f a = k b) : left.map f = right.map k := by
  induction all with
  | nil => rfl
  | cons one _ ih => rw [List.map_cons, List.map_cons, same _ _ one, ih]

theorem relatedLift {S : α → γ → Prop} {S' : β → δ → Prop} {T : γ → δ → Prop}
    (step : ∀ a b c, R a b → S a c → ∃ d, S' b d ∧ T c d) {first : List γ}
    (all : List.Forall₂ R left right) (given : List.Forall₂ S left first) :
    ∃ second, List.Forall₂ S' right second ∧ List.Forall₂ T first second := by
  induction all generalizing first with
  | nil =>
    cases given
    exact ⟨[], .nil, .nil⟩
  | cons one _ ih =>
    cases given with
    | cons two more =>
      obtain ⟨d, there, related⟩ := step _ _ _ one two
      obtain ⟨second, others, rest⟩ := ih more
      exact ⟨d :: second, .cons there others, .cons related rest⟩

end Related

theorem foundByKey {α : Type} {key : α → String} {l : List α} (distinct : (l.map key).Nodup)
    {name : String} {a : α} : l.find? (key · == name) = some a ↔ a ∈ l ∧ key a = name := by
  constructor
  · intro found
    exact ⟨List.mem_of_find?_eq_some found, by simpa using List.find?_some found⟩
  · rintro ⟨member, rfl⟩
    cases found : l.find? (key · == key a) with
    | none =>
      have missing := List.find?_eq_none.mp found a member
      simp at missing
    | some other =>
      have there := List.mem_of_find?_eq_some found
      have same : key other = key a := by simpa using List.find?_some found
      rw [List.inj_on_of_nodup_map distinct there member same]

namespace CallGraph

theorem duplicateNone {seen ids : List RoutineId} :
    duplicate? seen ids = none ↔ ids.Nodup ∧ ∀ id ∈ ids, id ∉ seen := by
  induction ids generalizing seen with
  | nil => simp [duplicate?]
  | cons first rest ih =>
    unfold duplicate?
    by_cases known : first ∈ seen
    · simp [known]
    · rw [if_neg known, ih, List.nodup_cons]
      constructor
      · rintro ⟨distinct, fresh⟩
        have absent : first ∉ rest := fun member => fresh first member (List.mem_cons_self ..)
        refine ⟨⟨absent, distinct⟩, ?_⟩
        intro id member
        rcases List.mem_cons.mp member with rfl | later
        · exact known
        · exact fun inside => fresh id later (List.mem_cons_of_mem _ inside)
      · rintro ⟨⟨absent, distinct⟩, fresh⟩
        refine ⟨distinct, ?_⟩
        intro id member inside
        rcases List.mem_cons.mp inside with rfl | old
        · exact absent member
        · exact fresh id (List.mem_cons_of_mem _ member) old

theorem ofProgramOk {program : Program} {h : Hierarchies} {g : CallGraph} :
    ofProgram program h = .ok g ↔
      (program.routines.map (·.id)).Nodup ∧
      (∀ v ∈ program.globals, Collect.checkClauses h v.type.effects v.name = .ok ()) ∧
      List.Forall₂ (fun r s => Collect.routineSites program h r = .ok s) program.routines g.sites := by
  unfold ofProgram
  cases repeated : duplicate? [] (program.routines.map (·.id)) with
  | some id =>
    have twice : ¬(program.routines.map (·.id)).Nodup := by
      intro distinct
      rw [duplicateNone.mpr ⟨distinct, by simp⟩] at repeated
      contradiction
    constructor
    · intro ok
      simp [throw, throwThe, MonadExceptOf.throw, bind, Except.bind] at ok
    · rintro ⟨distinct, _⟩
      exact absurd distinct twice
  | none =>
    have distinct := (duplicateNone.mp repeated).1
    constructor
    · intro ok
      obtain ⟨_, globals, ok⟩ := bindOk.mp ok
      obtain ⟨sites, walked, last⟩ := bindOk.mp ok
      cases Except.ok.inj last
      exact ⟨distinct, forMOk.mp globals, mapMOk.mp walked⟩
    · rintro ⟨_, globals, walked⟩
      refine bindOk.mpr ⟨(), forMOk.mpr globals, ?_⟩
      exact bindOk.mpr ⟨g.sites, mapMOk.mpr walked, rfl⟩

theorem builds {program : Program} {h : Hierarchies} (distinct : (program.routines.map (·.id)).Nodup)
    (globals : ∀ v ∈ program.globals, Collect.checkClauses h v.type.effects v.name = .ok ())
    (walked : ∀ r ∈ program.routines, ∃ s, Collect.routineSites program h r = .ok s) :
    ∃ g, ofProgram program h = .ok g := by
  have all : ∀ routines : List Routine, (∀ r ∈ routines, ∃ s, Collect.routineSites program h r = .ok s) →
      ∃ sites, List.Forall₂ (fun r s => Collect.routineSites program h r = .ok s) routines sites := by
    intro routines
    induction routines with
    | nil =>
      intro _
      exact ⟨[], .nil⟩
    | cons r rest ih =>
      intro each
      rw [List.forall_mem_cons] at each
      obtain ⟨s, one⟩ := each.1
      obtain ⟨sites, more⟩ := ih each.2
      exact ⟨s :: sites, .cons one more⟩
  obtain ⟨sites, walk⟩ := all program.routines walked
  exact ⟨⟨sites⟩, ofProgramOk.mpr ⟨distinct, globals, walk⟩⟩

end CallGraph

namespace Collect

theorem routineSitesOk {program : Program} {h : Hierarchies} {r : Routine} {s : RoutineSites}
    (ok : routineSites program h r = .ok s) :
    ∃ scope events, blockEvents ⟨program, h, r⟩ {} {} (r.body.getD []) = .ok (scope, events) ∧
      s = .ofEvents r.id events := by
  unfold routineSites at ok
  obtain ⟨_, _, ok⟩ := bindOk.mp ok
  obtain ⟨_, _, ok⟩ := bindOk.mp ok
  obtain ⟨⟨scope, events⟩, walked, last⟩ := bindOk.mp ok
  exact ⟨scope, events, walked, (Except.ok.inj last).symm⟩

theorem routineSitesName {program : Program} {h : Hierarchies} {r : Routine} {s : RoutineSites}
    (ok : routineSites program h r = .ok s) : s.routine = r.id := by
  obtain ⟨_, _, _, rfl⟩ := routineSitesOk ok
  rfl

theorem routineSitesBodiless {program : Program} {h : Hierarchies} {r : Routine} {s : RoutineSites}
    (ok : routineSites program h r = .ok s) (absent : r.body = none) :
    s.edges = [] ∧ s.raises = [] := by
  obtain ⟨scope, events, walked, rfl⟩ := routineSitesOk ok
  rw [absent] at walked
  simp only [Option.getD_none, blockEvents, Except.ok.injEq, Prod.mk.injEq] at walked
  rw [← walked.2]
  exact ⟨rfl, rfl⟩

end Collect

namespace CallGraph

/- Only with distinct names is the last entry for a name the only one. -/
theorem nodeNamed {g : CallGraph} (distinct : g.declarationOrder.Nodup) {id : RoutineId} {node : Nat} :
    g.node? id = some node ↔ g.declarationOrder[node]? = some id := by
  have position {node : Nat} (found : g.node? id = some node) :
      g.declarationOrder[node]? = some id := by
    obtain ⟨⟨name, place⟩, hit, rfl⟩ := Option.map_eq_some_iff.mp found
    have same : name = id := by simpa using List.find?_some hit
    have listed := List.mem_of_find?_eq_some hit
    rw [List.mem_reverse, List.mk_mem_zipIdx_iff_getElem?] at listed
    rw [listed, same]
  refine ⟨position, ?_⟩
  intro name
  cases known : g.node? id with
  | none =>
    have missing := Option.map_eq_none_iff.mp known
    have hit := List.find?_eq_none.mp missing (id, node)
      (by rw [List.mem_reverse, List.mk_mem_zipIdx_iff_getElem?]; exact name)
    simp at hit
  | some other =>
    have there := position known
    have inside : other < g.declarationOrder.length := (List.getElem?_eq_some_iff.mp there).1
    rw [(List.getElem?_inj inside distinct).mp (there.trans name.symm)]

theorem sitesOfName {g : CallGraph} (distinct : g.declarationOrder.Nodup) {id : RoutineId}
    {s : RoutineSites} : g.sites? id = some s ↔ s ∈ g.sites ∧ s.routine = id := by
  constructor
  · intro found
    obtain ⟨node, known, entry⟩ := Option.bind_eq_some_iff.mp found
    have name := (nodeNamed distinct).mp known
    rw [declarationOrder, List.getElem?_map, entry] at name
    exact ⟨List.mem_of_getElem? entry, by simpa using name⟩
  · rintro ⟨member, rfl⟩
    obtain ⟨place, entry⟩ := List.mem_iff_getElem?.mp member
    have name : g.declarationOrder[place]? = some s.routine := by
      rw [declarationOrder, List.getElem?_map, entry]
      rfl
    exact Option.bind_eq_some_iff.mpr ⟨place, (nodeNamed distinct).mpr name, entry⟩

theorem walkedNames {program : Program} {h : Hierarchies} {routines : List Routine}
    {sites : List RoutineSites}
    (walked : List.Forall₂ (fun r s => Collect.routineSites program h r = .ok s) routines sites) :
    sites.map (·.routine) = routines.map (·.id) :=
  (relatedMap walked fun _ _ ok => (Collect.routineSitesName ok).symm).symm

section Built

variable {program : Program} {h : Hierarchies} {g : CallGraph}

theorem builtNames (built : ofProgram program h = .ok g) :
    g.declarationOrder = program.routines.map (·.id) :=
  walkedNames (ofProgramOk.mp built).2.2

theorem builtDistinct (built : ofProgram program h = .ok g) : g.declarationOrder.Nodup := by
  rw [builtNames built]
  exact (ofProgramOk.mp built).1

theorem sitesOfRoutine (built : ofProgram program h = .ok g) {r : Routine}
    (member : r ∈ program.routines) :
    ∃ s, g.sites? r.id = some s ∧ Collect.routineSites program h r = .ok s := by
  obtain ⟨s, listed, ok⟩ := relatedMember (ofProgramOk.mp built).2.2 member
  exact ⟨s, (sitesOfName (builtDistinct built)).mpr ⟨listed, Collect.routineSitesName ok⟩, ok⟩

theorem routineOfSites (built : ofProgram program h = .ok g) {id : RoutineId} {s : RoutineSites}
    (found : g.sites? id = some s) :
    ∃ r ∈ program.routines, r.id = id ∧ Collect.routineSites program h r = .ok s := by
  have name := ((sitesOfName (builtDistinct built)).mp found)
  have listed : id ∈ program.routines.map (·.id) := by
    rw [← builtNames built, ← name.2]
    exact List.mem_map_of_mem name.1
  obtain ⟨r, member, rfl⟩ := List.mem_map.mp listed
  obtain ⟨s', found', ok⟩ := sitesOfRoutine built member
  rw [found] at found'
  cases found'
  exact ⟨r, member, rfl, ok⟩

theorem routineUnique (built : ofProgram program h = .ok g) {r r' : Routine}
    (left : r ∈ program.routines) (right : r' ∈ program.routines) (same : r.id = r'.id) :
    r = r' :=
  List.inj_on_of_nodup_map (ofProgramOk.mp built).1 left right same

end Built

def label (g : CallGraph) (node : Nat) : RoutineId := g.declarationOrder.toArray.getD node ""

def leads (g : CallGraph) (node : Nat) : List Nat :=
  ((Array.range g.size).map (successors g.edges)).getD node []

theorem componentsNamed (g : CallGraph) :
    g.components = (Components.components g.size g.leads).map fun component =>
      component.map g.label := rfl

theorem labelled {g : CallGraph} {node : Nat} (small : node < g.size) :
    g.declarationOrder[node]? = some (g.label node) := by
  have inside : node < g.declarationOrder.length := by simpa [declarationOrder, size] using small
  simp [label, Array.getD, inside]

theorem labelOf {g : CallGraph} {node : Nat} {id : RoutineId}
    (entry : g.declarationOrder[node]? = some id) : node < g.size ∧ g.label node = id := by
  have small : node < g.size := by
    simpa [declarationOrder, size] using (List.getElem?_eq_some_iff.mp entry).1
  exact ⟨small, Option.some.inj ((labelled small).symm.trans entry)⟩

theorem nodeWithin {g : CallGraph} {id : RoutineId} {node : Nat} (known : g.node? id = some node) :
    node < g.size := by
  obtain ⟨⟨name, place⟩, hit, rfl⟩ := Option.map_eq_some_iff.mp known
  have listed := List.mem_of_find?_eq_some hit
  rw [List.mem_reverse, List.mk_mem_zipIdx_iff_getElem?] at listed
  exact (labelOf listed).1

theorem successorIff {g : CallGraph} {node next : Nat} :
    next ∈ successors g.edges node ↔
      ∃ routine ∈ g.sites, g.node? routine.routine = some node ∧
        ∃ site ∈ routine.edges, site.target.routine?.bind g.node? = some next := by
  rw [successors, List.mem_reverse, List.mem_filterMap]
  constructor
  · rintro ⟨⟨caller, callee⟩, edge, hit⟩
    obtain ⟨routine, listed, inside⟩ := List.mem_flatMap.mp edge
    refine ⟨routine, listed, ?_⟩
    cases known : g.node? routine.routine with
    | none => simp [known] at inside
    | some own =>
      simp only [known, List.mem_map, List.mem_filterMap] at inside
      obtain ⟨target, found, pair⟩ := inside
      cases pair
      dsimp only at hit
      split at hit
      · next same =>
        cases hit
        exact ⟨congrArg some same, found⟩
      · contradiction
  · rintro ⟨routine, listed, known, found⟩
    refine ⟨(node, next), List.mem_flatMap.mpr ⟨routine, listed, ?_⟩, by simp⟩
    simp only [known, List.mem_map, List.mem_filterMap]
    exact ⟨next, found, rfl⟩

theorem leadsIff {g : CallGraph} {node next : Nat} :
    next ∈ g.leads node ↔ node < g.size ∧ next ∈ successors g.edges node := by
  by_cases inside : node < g.size
  · simp [leads, Array.getD, inside]
  · simp [leads, Array.getD, inside]

theorem leadsWithin (g : CallGraph) (node : Nat) : ∀ next ∈ g.leads node, next < g.size := by
  intro next listed
  obtain ⟨_, _, _, site, _, found⟩ := successorIff.mp (leadsIff.mp listed).2
  obtain ⟨id, _, there⟩ := Option.bind_eq_some_iff.mp found
  exact nodeWithin there

theorem everyRoutineOrdered (g : CallGraph) {id : RoutineId} (member : id ∈ g.declarationOrder) :
    id ∈ g.calleesFirstOrder := by
  obtain ⟨place, entry⟩ := List.mem_iff_getElem?.mp member
  obtain ⟨small, name⟩ := labelOf entry
  obtain ⟨component, listed, within⟩ := Components.everyNodeListed g.size g.leads small
  exact List.mem_flatten.mpr ⟨_, List.mem_map_of_mem listed, List.mem_map.mpr ⟨place, within, name⟩⟩

theorem labelInjective {g : CallGraph} (distinct : g.declarationOrder.Nodup) {a b : Nat}
    (first : a < g.size) (second : b < g.size) (same : g.label a = g.label b) : a = b := by
  have inside : a < g.declarationOrder.length := by simpa [declarationOrder, size] using first
  refine (List.getElem?_inj inside distinct).mp ?_
  rw [labelled first, labelled second, same]

theorem orderDistinct {g : CallGraph} (distinct : g.declarationOrder.Nodup) :
    g.calleesFirstOrder.Nodup := by
  obtain ⟨nodes, within⟩ := Components.componentsDistinct g.leadsWithin
  have named : g.calleesFirstOrder = (Components.components g.size g.leads).flatten.map g.label := by
    rw [List.map_flatten]
    rfl
  rw [named]
  refine nodes.map_on ?_
  intro a first b second same
  exact labelInjective distinct (within a first) (within b second) same

end CallGraph
end EffectAudit
