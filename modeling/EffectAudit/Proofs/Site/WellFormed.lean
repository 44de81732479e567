import Mathlib.Data.List.Perm.Basic
import EffectAudit.Proofs.Site.Stretches
/-! Ordinals, and what they have to do with the body. The four lists of sites draw their ordinals from one
count, so that together they use up an initial stretch of the numbers; each ordinal belongs to one leaf of
the body, from which the arms and the guards around the site are read off. -/
namespace EffectAudit
namespace RoutineSites

def ordinals (sites : RoutineSites) : List Nat :=
  sites.edges.map (·.ordinal) ++ sites.raises.map (·.ordinal) ++ sites.markers.map (·.ordinal) ++
    sites.bindings.map (·.ordinal)

structure Counted (sites : RoutineSites) : Prop where
  all : sites.ordinals.Perm (List.range sites.ordinals.length)
  edges : sites.edges.Pairwise (·.ordinal < ·.ordinal)
  raises : sites.raises.Pairwise (·.ordinal < ·.ordinal)
  markers : sites.markers.Pairwise (·.ordinal < ·.ordinal)
  bindings : sites.bindings.Pairwise (·.ordinal < ·.ordinal)
  indexes : sites.markers.map (·.index) = List.range sites.markers.length

theorem markersMap (id : RoutineId) (events : List Site.Event) {α : Type} {f : Site.Marker → α}
    (blind : ∀ marker index, f { marker with index } = f marker) :
    (ofEvents id events).markers.map f =
      (events.zipIdx.filterMap fun pair => pair.1.marker? pair.2).map f := by
  apply List.ext_getElem?
  intro index
  unfold ofEvents
  rw [List.getElem?_map, List.getElem?_map, List.getElem?_mapIdx, Option.map_map]
  congr 1
  funext marker
  exact blind marker index

theorem numbersRise (events : List Site.Event) : events.zipIdx.Pairwise (·.2 < ·.2) := by
  rw [← List.pairwise_map (f := Prod.snd), List.zipIdx_map_snd]
  exact List.pairwise_lt_range'

theorem pickedRise {α : Type} {pick : Site.Event × Nat → Option α} {ordinal : α → Nat}
    (numbered : ∀ pair site, pick pair = some site → ordinal site = pair.2) (events : List Site.Event) :
    (events.zipIdx.filterMap pick).Pairwise fun a b => ordinal a < ordinal b := by
  rw [List.pairwise_filterMap]
  refine (numbersRise events).imp ?_
  intro first second earlier site one site' two
  rw [numbered first site one, numbered second site' two]
  exact earlier

theorem pickedOnce (numbered : List (Site.Event × Nat)) :
    ((numbered.filterMap fun pair => pair.1.edge? pair.2).map (·.ordinal) ++
      (numbered.filterMap fun pair => pair.1.raise? pair.2).map (·.ordinal) ++
      (numbered.filterMap fun pair => pair.1.marker? pair.2).map (·.ordinal) ++
      (numbered.filterMap fun pair => pair.1.binding? pair.2).map (·.ordinal)).Perm
      (numbered.map Prod.snd) := by
  induction numbered with
  | nil => simp
  | cons pair rest ih =>
    cases pair with
    | mk event ordinal =>
      refine List.Perm.trans ?_ (ih.cons ordinal)
      cases event with
      | edge kind target context span => exact .refl _
      | raise raised context span => exact (List.perm_middle.append_right _).append_right _
      | marker label context span => exact List.perm_middle.append_right _
      | binding target expected value span => exact List.perm_middle

theorem ofEventsOrdinals (id : RoutineId) (events : List Site.Event) :
    (ofEvents id events).ordinals.Perm (List.range events.length) := by
  unfold ordinals
  rw [markersMap id events (fun _ _ => rfl), List.range_eq_range', ← List.zipIdx_map_snd]
  exact pickedOnce events.zipIdx

theorem ofEventsCounted (id : RoutineId) (events : List Site.Event) : (ofEvents id events).Counted := by
  have all := ofEventsOrdinals id events
  refine ⟨?all, pickedRise ?edges events, pickedRise ?raises events, ?markers, pickedRise ?bindings events,
    ?indexes⟩
  case all =>
    rw [all.length_eq, List.length_range]
    exact all
  case markers =>
    rw [← List.pairwise_map (f := Site.Marker.ordinal), markersMap id events (fun _ _ => rfl),
      List.pairwise_map]
    refine pickedRise ?_ events
    intro pair site found
    obtain ⟨event, ordinal⟩ := pair
    cases event <;> cases found
    rfl
  case indexes =>
    apply List.ext_getElem
    · simp
    · simp [ofEvents]
  all_goals
    intro pair site found
    obtain ⟨event, ordinal⟩ := pair
    cases event <;> cases found
    rfl

def places (sites : RoutineSites) : List (Nat × Site.Context) :=
  sites.edges.map (fun site => (site.ordinal, site.context)) ++
    sites.raises.map fun site => (site.ordinal, site.context)

def located (sites : RoutineSites) : List (Nat × Site.Context) :=
  sites.places ++ sites.markers.map fun site => (site.ordinal, site.context)

section Places

variable {id : RoutineId} {events : List Site.Event} {place : Nat × Site.Context}

theorem placeWalked (listed : place ∈ (ofEvents id events).places) :
    ∃ event, events[place.1]? = some event ∧ event.context? = some place.2 := by
  rcases List.mem_append.mp listed with edges | raises
  · obtain ⟨site, there, rfl⟩ := List.mem_map.mp edges
    obtain ⟨⟨event, ordinal⟩, numbered, same⟩ := List.mem_filterMap.mp there
    cases event <;> cases same
    exact ⟨_, List.mk_mem_zipIdx_iff_getElem?.mp numbered, rfl⟩
  · obtain ⟨site, there, rfl⟩ := List.mem_map.mp raises
    obtain ⟨⟨event, ordinal⟩, numbered, same⟩ := List.mem_filterMap.mp there
    cases event <;> cases same
    exact ⟨_, List.mk_mem_zipIdx_iff_getElem?.mp numbered, rfl⟩

theorem markerWalked {marker : Site.Marker} (listed : marker ∈ (ofEvents id events).markers) :
    events[marker.ordinal]? = some (.marker marker.label marker.context marker.span) := by
  obtain ⟨index, small, rfl⟩ := List.mem_mapIdx.mp listed
  obtain ⟨⟨event, ordinal⟩, numbered, same⟩ := List.mem_filterMap.mp (List.getElem_mem small)
  cases event with
  | marker label context span =>
    rw [← Option.some.inj same]
    exact List.mk_mem_zipIdx_iff_getElem?.mp numbered
  | edge kind target context span => contradiction
  | raise raised context span => contradiction
  | binding target expected value span => contradiction

theorem locatedWalked (listed : place ∈ (ofEvents id events).located) :
    ∃ event, events[place.1]? = some event ∧ event.context? = some place.2 := by
  rcases List.mem_append.mp listed with earlier | markers
  · exact placeWalked earlier
  · obtain ⟨marker, there, rfl⟩ := List.mem_map.mp markers
    exact ⟨_, markerWalked there, rfl⟩

end Places

structure Standing (sites : RoutineSites) (h : Hierarchy) (leaves : List Leaf) : Prop where
  all : leaves.length = sites.ordinals.length
  context : ∀ place ∈ sites.located, ∃ leaf, leaves[place.1]? = some leaf ∧ place.2 = leaf.context h
  rising : ∀ place ∈ sites.located, Collect.Rising place.2
  between : ∀ {i j k : Nat} {start middle stop : Leaf}, i ≤ j ∧ j ≤ k → leaves[i]? = some start →
    leaves[j]? = some middle → leaves[k]? = some stop → ∀ construct,
    Collect.Encloses construct (start.context h) → Collect.Encloses construct (stop.context h) →
    Collect.Encloses construct (middle.context h)

open Collect in
theorem ofEventsStanding {u : Setting} {r : Routine} {parts : List (List Site.Event)}
    (gives : List.Forall₂ (Gives u {}) r.leaves parts) :
    (ofEvents r.id parts.flatten).Standing u.hierarchies.raises (homes r.leaves parts) := by
  have home : ∀ place ∈ (ofEvents r.id parts.flatten).located, ∃ leaf,
      (homes r.leaves parts)[place.1]? = some leaf ∧ place.2 = leaf.context u.hierarchies.raises := by
    intro place listed
    obtain ⟨event, there, found⟩ := locatedWalked listed
    obtain ⟨leaf, own, fit⟩ := eventHome gives there
    exact ⟨leaf, own, fit place.2 found⟩
  refine ⟨?_, home, ?_, fun upward one two three _ => homesBetween parts upward one two three⟩
  · rw [(ofEventsOrdinals r.id parts.flatten).length_eq, List.length_range]
    exact (homesFit gives).length_eq
  · intro place listed
    obtain ⟨leaf, own, same⟩ := home place listed
    rw [same]
    exact homesRising (homesMember (List.mem_of_getElem? own)) _

end RoutineSites

/- The sites of a routine are the events of its leaves, one leaf after the other. A binding keeps no context,
so for it only the leaf says what is around it. -/
theorem sitesWellFormed {program : Program} {h : Hierarchies} {g : CallGraph}
    (built : CallGraph.ofProgram program h = .ok g) {r : Routine} (listed : r ∈ program.routines) :
    ∃ sites parts, g.sites? r.id = some sites ∧
      List.Forall₂ (Collect.Gives ⟨program, h, r⟩ {}) r.leaves parts ∧
      sites = .ofEvents r.id parts.flatten ∧ sites.Counted ∧
      sites.Standing h.raises (Collect.homes r.leaves parts) := by
  obtain ⟨sites, found, collected⟩ := CallGraph.sitesOfRoutine built listed
  obtain ⟨scope, events, walk, rfl⟩ := Collect.routineWalk collected
  obtain ⟨parts, gives, whole⟩ := (Collect.walkGathered walk).parts
  cases whole
  exact ⟨_, parts, found, gives, rfl, RoutineSites.ofEventsCounted _ _,
    RoutineSites.ofEventsStanding gives⟩

def mirror : Routine :=
  { id := "mirror"
    body := some [
      .define "reader" (some ⟨{ raises := some ["IOError"] }⟩) (some (.routine "fetch")) .zero,
      .protect [
        .branch [
          .mk (.call (.routine "fetch") [] .zero) [.expr (.call (.binding "reader") [] .zero)],
          .mk (.call (.binding "reader") [] .zero) [
            .protect [.assign "reader" (.routine "fetch") .zero]
              [.mk ["KeyError"] [.raise none [] .zero]] (some [.marker (some "tried") .zero])]]
          (some [.raise (some "ValueError") [] .zero])]
        [.mk ["IOError"] [.expr (.call (.routine "fetch") [] .zero)], .mk ["ValueError"] []]
        (some [.loop (.call (.routine "fetch") [] .zero) [.marker (some "again") .zero]])] }

def mirrored : Program :=
  { unit := "mirror"
    routines := [mirror, { id := "fetch", origin := .foreign }] }

def mirrorGraph : CallGraph := (CallGraph.ofProgram mirrored .builtin).toOption.getD ⟨[]⟩

theorem mirrorStands : CallGraph.ofProgram mirrored .builtin = .ok mirrorGraph ∧
    mirror ∈ mirrored.routines ∧ ∃ sites parts, mirrorGraph.sites? "mirror" = some sites ∧
      sites.ordinals = [0, 2, 3, 4, 5, 10, 11, 7, 9, 8, 12, 1, 6] ∧
      sites.raises.map (·.context.guards) =
        List.replicate 2 [⟨0, .kinds ["IOError"]⟩, ⟨0, .kinds ["ValueError"]⟩] ∧
      sites.Counted ∧
      sites.Standing Hierarchies.builtin.raises (Collect.homes mirror.leaves parts) := by
  have built : CallGraph.ofProgram mirrored .builtin = .ok mirrorGraph := by decide +kernel
  have listed : mirror ∈ mirrored.routines := List.mem_cons_self ..
  obtain ⟨sites, parts, found, _, _, counted, standing⟩ := sitesWellFormed built listed
  have seen : (mirrorGraph.sites? "mirror").map
      (fun own => (own.ordinals, own.raises.map (·.context.guards))) = some ([0, 2, 3, 4, 5, 10, 11, 7, 9, 8, 12, 1, 6],
        List.replicate 2 [⟨0, .kinds ["IOError"]⟩, ⟨0, .kinds ["ValueError"]⟩]) := by
    decide +kernel
  rw [show mirrorGraph.sites? "mirror" = some sites from found] at seen
  obtain ⟨numbers, guards⟩ := Prod.mk.inj (Option.some.inj seen)
  exact ⟨built, listed, sites, parts, found, numbers, guards, counted, standing⟩

end EffectAudit
