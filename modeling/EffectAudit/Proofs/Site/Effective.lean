import EffectAudit.Proofs.Site.Targets
import EffectAudit.Proofs.Tree.Markers
/-! What effects depend on among the events of a body. Bindings add nothing. Of a call or mention only
the target counts, and whether it goes through a parameter; and an untyped local that stands for a
routine is as good as the routine. Two bodies that agree in this much have the same sums, lead to the
same routines and report the same. -/
namespace EffectAudit

def EdgeTarget.followed : EdgeTarget → EdgeTarget
  | .routine id => .routine id
  | .param name => .param name
  | .binding name bound none => .binding name bound none
  | .binding name bound (some id) =>
    if bound = .unconstrained then .routine id else .binding name bound (some id)
  | .computed => .computed

def EdgeKind.plain (kind : EdgeKind) : EdgeKind :=
  if kind = .indirectParam then .indirectParam else .direct

def Site.Event.effective? : Site.Event → Option Site.Event
  | .edge kind target context span => some (.edge kind.plain target.followed context span)
  | .raise raised context span => some (.raise raised context span)
  | .marker label context span => some (.marker label context span)
  | .binding _ _ _ _ => none

theorem EdgeTarget.followedCases (target : EdgeTarget) :
    target.followed = target ∨
      ∃ name id, target = .binding name .unconstrained (some id) ∧ target.followed = .routine id := by
  cases target with
  | routine id => exact .inl rfl
  | param name => exact .inl rfl
  | computed => exact .inl rfl
  | binding name bound origin =>
    cases origin with
    | none => exact .inl rfl
    | some id =>
      by_cases free : bound = .unconstrained
      · exact .inr ⟨name, id, by rw [free], if_pos free⟩
      · exact .inl (if_neg free)

theorem EdgeTarget.followedRoutine (target : EdgeTarget) : target.followed.routine? = target.routine? := by
  rcases target.followedCases with same | ⟨name, id, rfl, same⟩
  · rw [same]
  · rw [same]
    rfl

namespace Contribution

variable {h : Hierarchies} {table : EffectTable} {filter : SiteFilter} {category : Category}

theorem ofTargetFollowed (target : EdgeTarget) :
    ofTarget h table category target.followed = ofTarget h table category target := by
  rcases target.followedCases with same | ⟨name, id, rfl, same⟩
  · rw [same]
  · rw [same]
    cases category <;> rfl

theorem ofEdgePlain (kind : EdgeKind) (target : EdgeTarget) (context : Site.Context) (span : Span) :
    ofEdge h table category ⟨0, kind.plain, target.followed, context, span⟩ =
      ofEdge h table category ⟨0, kind, target, context, span⟩ := by
  unfold ofEdge EdgeKind.plain
  by_cases param : kind = .indirectParam
  · simp [param]
  · simp [param, ofTargetFollowed]

theorem ofEventsEffective (events : List Site.Event) :
    ofEvents h table filter category (events.filterMap Site.Event.effective?) =
      ofEvents h table filter category events := by
  induction events with
  | nil => rfl
  | cons event rest ih =>
    rw [← List.singleton_append, List.filterMap_append, ofEventsAppend, ofEventsAppend, ih]
    congr 1
    cases event with
    | edge kind target context span =>
      refine (ofEventsSingle _).trans (Eq.trans ?_ (ofEventsSingle _).symm)
      exact congrArg (escaping h filter category context) (ofEdgePlain kind target context span)
    | raise raised context span => rfl
    | marker label context span => rfl
    | binding target expected value span =>
      exact (ofEventsSingle (.binding target expected value span)).symm

end Contribution

def Collect.SameEffects (events events' : List Site.Event) : Prop :=
  events.filterMap Site.Event.effective? = events'.filterMap Site.Event.effective?

namespace Tree
open Collect

variable {u : Setting} {table : EffectTable} {category : Category}

theorem seenEffective (context : Site.Context) (before : List Site.Event) :
    seenAt u table category context (before.filterMap Site.Event.effective?) =
      seenAt u table category context before := by
  -- A marker sees an event or not by the context alone, which stays as it is.
  have kept : (before.filterMap Site.Event.effective?).filter
      (fun event => !(event.context?.getD {}).isExclusiveWith context) =
        (before.filter fun event => !(event.context?.getD {}).isExclusiveWith context).filterMap
          Site.Event.effective? := by
    rw [List.filter_filterMap, List.filterMap_filter]
    congr 1
    funext event
    cases event with
    | edge kind target own span => simp [Site.Event.effective?, Site.Event.context?, Option.filter]
    | raise raised own span => simp [Site.Event.effective?, Site.Event.context?, Option.filter]
    | marker label own span => simp [Site.Event.effective?, Site.Event.context?, Option.filter]
    | binding target expected value span => simp [Site.Event.effective?]
  unfold seenAt
  rw [kept, Contribution.ofEventsEffective]

theorem marksEffective (before events : List Site.Event) :
    marksOf u table category (before.filterMap Site.Event.effective?)
        (events.filterMap Site.Event.effective?) = marksOf u table category before events := by
  induction events generalizing before with
  | nil => rfl
  | cons event rest ih =>
    have later := ih (before ++ [event])
    rw [List.filterMap_append] at later
    cases event with
    | marker label context span =>
      change _ :: _ = _ :: _
      rw [seenEffective]
      exact congrArg _ later
    | edge kind target context span => exact later
    | raise raised context span => exact later
    | binding target expected value span =>
      rw [show List.filterMap Site.Event.effective? [.binding target expected value span] = [] from rfl,
        List.append_nil] at later
      exact later

theorem reportsFromMarks (id : RoutineId) (events : List Site.Event) :
    (RoutineSites.ofEvents id events).markers.map
        (EffectReport.ofMarker u.hierarchies table (.ofEvents id events)) =
      ((marksOf u table .raises [] events).zip (marksOf u table .tags [] events)).mapIdx
        fun index mark => ⟨id, index, mark.1.label, mark.1.span, mark.1.effects, mark.2.effects⟩ := by
  rw [← marksNumbered id [] events, ← marksNumbered id [] events, List.zip_map']
  apply List.ext_getElem?
  intro index
  unfold RoutineSites.ofEvents
  rw [List.getElem?_map, List.getElem?_mapIdx, List.getElem?_mapIdx, List.getElem?_map,
    Option.map_map, Option.map_map]
  rfl

end Tree

namespace RoutineSites

theorem targetsOfEvents (id : RoutineId) (events : List Site.Event) :
    (ofEvents id events).edges.filterMap (·.target.routine?) =
      events.filterMap Site.Event.target? := by
  have each : (fun pair : Site.Event × Nat => (pair.1.edge? pair.2).bind (·.target.routine?)) =
      Site.Event.target? ∘ Prod.fst := by
    funext pair
    cases pair with
    | mk event ordinal => cases event <;> rfl
  refine (List.filterMap_filterMap ..).trans ?_
  rw [each, ← List.filterMap_map, List.zipIdx_map_fst]

theorem targetsEffective (events : List Site.Event) :
    (events.filterMap Site.Event.effective?).filterMap Site.Event.target? =
      events.filterMap Site.Event.target? := by
  rw [List.filterMap_filterMap]
  congr 1
  funext event
  cases event with
  | edge kind target context span => exact EdgeTarget.followedRoutine target
  | raise raised context span => rfl
  | marker label context span => rfl
  | binding target expected value span => rfl

structure Interchangeable (h : Hierarchies) (sites sites' : RoutineSites) : Prop where
  routine : sites.routine = sites'.routine
  targets : sites.edges.filterMap (·.target.routine?) = sites'.edges.filterMap (·.target.routine?)
  sums : ∀ table category, Contribution.accumulate h table sites category .all =
    Contribution.accumulate h table sites' category .all
  reports : ∀ table, sites.markers.map (EffectReport.ofMarker h table sites) =
    sites'.markers.map (EffectReport.ofMarker h table sites')

theorem interchangeable (u : Collect.Setting) (id : RoutineId) {events events' : List Site.Event}
    (same : Collect.SameEffects events events') :
    Interchangeable u.hierarchies (ofEvents id events) (ofEvents id events') := by
  unfold Collect.SameEffects at same
  refine ⟨rfl, ?_, ?_, ?_⟩
  · rw [targetsOfEvents, targetsOfEvents, ← targetsEffective, same, targetsEffective]
  · intro table category
    rw [Contribution.accumulateEvents, Contribution.accumulateEvents, Contribution.admittedAll,
      Contribution.admittedAll, ← Contribution.ofEventsEffective, same, Contribution.ofEventsEffective]
  · intro table
    have marks (category : Category) : Tree.marksOf u table category [] events =
        Tree.marksOf u table category [] events' := by
      rw [← Tree.marksEffective, same, Tree.marksEffective]
    rw [Tree.reportsFromMarks, Tree.reportsFromMarks, marks, marks]

end RoutineSites
end EffectAudit
