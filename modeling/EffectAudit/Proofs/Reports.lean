import EffectAudit.Proofs.Inference.LeastSolution
import EffectAudit.Proofs.Site.Enclosures
import EffectAudit.Proofs.Site.Exclusion
import EffectAudit.Proofs.Site.WellFormed
import EffectAudit.Proofs.Tree.Flattening
import EffectAudit.Report
/-! What a report at a marker has to do with the table and with the reports around it. Up to a marker
fewer sites count than in the whole routine, and the handlers of a protected body count only once it
has been left. So a report stays within what is inferred unless the marker is in a protected body, and
it grows from marker to marker as long as no arm is left on the way. -/
namespace EffectAudit

namespace RoutineSites

theorem markerContexts (id : RoutineId) (events : List Site.Event) :
    (ofEvents id events).markers.map (·.context) = events.filterMap Site.Event.markerContext? := by
  have each : (fun pair : Site.Event × Nat => (pair.1.marker? pair.2).map (·.context)) =
      Site.Event.markerContext? ∘ Prod.fst := by
    funext pair
    cases pair with
    | mk event ordinal => cases event <;> rfl
  rw [markersMap id events (fun _ _ => rfl), List.map_filterMap, each, ← List.filterMap_map,
    List.zipIdx_map_fst]

end RoutineSites

namespace Contribution

variable {h : Hierarchies} {table : EffectTable} {sites : RoutineSites} {category : Category}

theorem accumulateFilterLe {few many : SiteFilter}
    (admits : ∀ place ∈ sites.places, few.admits place.1 place.2 = true →
      many.admits place.1 place.2 = true)
    (applies : category = .raises → ∀ guard, many.applies guard = true → few.applies guard = true) :
    accumulate h table sites category few ≤ accumulate h table sites category many := by
  rw [EffectSet.leHolds]
  intro x member
  obtain ⟨y, delivered, yields⟩ := accumulateHolds.mp member
  refine accumulateHolds.mpr ⟨y, ?_, yields⟩
  cases delivered with
  | edge site listed admitted held escapes =>
    have place : (site.ordinal, site.context) ∈ sites.places :=
      List.mem_append_left _ (List.mem_map_of_mem listed)
    exact .edge site listed (admits _ place admitted) held
      fun raises g around active => escapes raises g around (applies raises g active)
  | raise site raises listed admitted held escapes =>
    have place : (site.ordinal, site.context) ∈ sites.places :=
      List.mem_append_right _ (List.mem_map_of_mem listed)
    exact .raise site raises listed (admits _ place admitted) held
      fun raises g around active => escapes raises g around (applies raises g active)

theorem upToLe {marker : Site.Marker}
    (outside : category = .raises → ∀ construct, marker.context.inTryBodyOf construct = false) :
    accumulate h table sites category (.upTo marker) ≤ accumulate h table sites category .all := by
  refine accumulateFilterLe (fun _ _ _ => rfl) ?_
  intro raises guard _
  simp [SiteFilter.applies, outside raises]

theorem upToWhole {marker : Site.Marker} (bare : marker.context.arms = [])
    (last : ∀ place ∈ sites.places, place.1 < marker.ordinal) :
    accumulate h table sites category (.upTo marker) = accumulate h table sites category .all := by
  apply le_antisymm
  · refine upToLe fun _ construct => ?_
    simp [Site.Context.inTryBodyOf, bare]
  · refine accumulateFilterLe (fun place listed _ => ?_) (fun _ _ _ => rfl)
    have free : place.2.isExclusiveWith marker.context = false := by
      simp [Site.Context.isExclusiveWith, bare]
    simp [SiteFilter.admits, last place listed, free]

end Contribution

def CallGraph.lastAt (g : CallGraph) (id : RoutineId) (index : Nat) : Bool :=
  (g.sites? id).any fun sites => (sites.marker? index).any fun marker =>
    sites.places.all fun place => place.1 < marker.ordinal

theorem markerFits {outer : Site.Context} {markers : List Site.Marker} {enclosures : List Enclosure}
    (fits : List.Forall₂ (Collect.Fits outer) (markers.map (·.context)) enclosures) {index : Nat}
    {around : Enclosure} (there : enclosures[index]? = some around) :
    ∃ marker, markers[index]? = some marker ∧ Collect.Fits outer marker.context around := by
  have related := relatedAt (List.forall₂_map_left_iff.mp fits) index
  rw [there] at related
  generalize markers[index]? = found at related ⊢
  cases related with
  | some fit => exact ⟨_, rfl, fit⟩

namespace Inference

variable {i : Setting}

/- The rule of the routine bounds its reports in every table that a run ends with, also in one that was
widened; where nothing but the rule counted, a marker at the end of the body reports all of it. -/
theorem reportsAgreeWithTable (built : CallGraph.ofProgram i.program i.hierarchies = .ok i.graph)
    {r : Routine} (listed : r ∈ i.program.routines) {index : Nat} {around : Enclosure}
    (there : r.enclosures[index]? = some around) :
    ∃ report, EffectReport.atIndex? i.graph i.hierarchies (run i).table r.id index = some report ∧
      report.tags ≤ (run i).table.inferred r.id .tags ∧
      (around.sheltered = false → report.raises ≤ (run i).table.inferred r.id .raises) ∧
      ((run i).metrics.converged = true → around.nested = false →
        i.graph.lastAt r.id index = true →
          report.raises = (run i).table.inferred r.id .raises ∧
            report.tags = (run i).table.inferred r.id .tags) := by
  have body : r.hasBody = true := by
    unfold Routine.enclosures at there
    unfold Routine.hasBody
    cases present : r.body with
    | some stmts => rfl
    | none => simp [present, Stmt.allEnclosures] at there
  obtain ⟨sites, found, walked⟩ := CallGraph.sitesOfRoutine built listed
  obtain ⟨scope, events, walk, rfl⟩ := Collect.routineWalk walked
  have fits : Collect.MarkersFit {} events r.enclosures := Collect.walkFits walk
  unfold Collect.MarkersFit at fits
  rw [← RoutineSites.markerContexts r.id] at fits
  obtain ⟨marker, met, fit⟩ := markerFits fits there
  have rule := runRule built listed body found
  refine ⟨.ofMarker i.hierarchies (run i).table (.ofEvents r.id events) marker, ?_, ?_, ?_, ?_⟩
  · unfold EffectReport.atIndex? RoutineSites.marker?
    rw [found]
    dsimp only [bind, Option.bind]
    rw [met]
    rfl
  · exact (Contribution.upToLe (by simp)).trans (rule .tags)
  · intro free
    refine (Contribution.upToLe fun _ construct => ?_).trans (rule .raises)
    rw [Bool.eq_false_iff, ne_eq, Collect.insideTry]
    intro member
    simpa using fit.unsheltered free _ member rfl
  · intro done bare ends
    have visit := (visited built (v := (r.id, _))).mpr ⟨r, listed, rfl, body, found⟩
    have whole (category : Category) : Contribution.accumulate i.hierarchies (run i).table
        (.ofEvents r.id events) category (.upTo marker) = (run i).table.inferred r.id category := by
      rw [Contribution.upToWhole (fit.bare bare)]
      · exact le_antisymm (rule category) (convergedExact built done visit category)
      · unfold CallGraph.lastAt RoutineSites.marker? at ends
        rw [found, Option.any_some, met, Option.any_some, List.all_eq_true] at ends
        intro place member
        exact of_decide_eq_true (ends place member)
    exact ⟨whole .raises, whole .tags⟩

def ledger : Program :=
  { unit := "ledger"
    routines := [
      { id := "post"
        effects := { raises := some ["IOError", "Timeout"], tags := some [] }
        body := some [
          .protect [.raise (some "KeyError") [] .zero, .marker (some "looked up") .zero]
            [.mk ["KeyError"] []] none,
          .expr (.call (.routine "store") [] .zero),
          .marker (some "posted") .zero] },
      { id := "store"
        origin := .foreign
        effects := { raises := some ["IOError"], tags := some ["WriteIOEffect"] } }] }

def ledgerSetting : Setting :=
  { program := ledger
    graph := (CallGraph.ofProgram ledger .builtin).toOption.getD ⟨[]⟩
    hierarchies := .builtin
    config := .ofPreset .permissive }

/- `KeyError` is reported in the protected body, from which it does not get out. -/
theorem ledgerReports :
    (EffectReport.atIndex? ledgerSetting.graph .builtin (run ledgerSetting).table "post" 0).map
        (·.raises.kinds?) = some (some ["KeyError"]) ∧
      (run ledgerSetting).table.inferred "post" .raises = .known (.ofList ["IOError"]) ∧
      ∃ report, EffectReport.atIndex? ledgerSetting.graph .builtin (run ledgerSetting).table "post" 1 =
          some report ∧
        report.raises = (run ledgerSetting).table.inferred "post" .raises ∧
        report.tags = (run ledgerSetting).table.inferred "post" .tags := by
  have last : (ledger.routines.get ⟨0, by decide⟩).enclosures[1]? = some ⟨false, false⟩ := rfl
  obtain ⟨report, there, _, _, whole⟩ := reportsAgreeWithTable (i := ledgerSetting) (by decide +kernel)
    (List.get_mem ledger.routines ⟨0, by decide⟩) last
  exact ⟨by decide +kernel, by decide +kernel, report, there,
    whole (by decide +kernel) rfl (by decide +kernel)⟩

end Inference

namespace Collect

variable {u : Setting} {after : Scope} {events : List Site.Event}

/- Whoever can come before the first marker can come before the second one. If an arm around the second
excludes it, both are inside that construct, so the first marker is as well, and in the arm of the
second. -/
theorem stillCompatible {body : List Stmt} (walk : Walk u {} {} (.block body) after events)
    {i j k : Nat} (upward : i ≤ j ∧ j ≤ k) {start middle stop : Site.Event}
    (one : events[i]? = some start) (two : events[j]? = some middle)
    (three : events[k]? = some stop) {c first second : Site.Context}
    (here : start.context? = some c) (there : middle.context? = some first)
    (yonder : stop.context? = some second) (inner : ∀ ref ∈ first.arms, ref ∈ second.arms)
    (free : c.isExclusiveWith first = false) : c.isExclusiveWith second = false := by
  rw [compatibleIff] at free ⊢
  intro mine own theirs other same
  have between : Encloses mine.construct first :=
    bodyBetween walk upward one two three here there yonder ⟨mine, own, rfl⟩
      ⟨theirs, other, same.symm⟩
  obtain ⟨ref, member, number⟩ := between
  have rising : Rising second := bodyRising walk (List.mem_of_getElem? three) yonder
  have arm : ref = theirs := risingUnique rising (inner ref member) other (number.trans same)
  exact free mine own theirs (arm ▸ member) same

end Collect

theorem reportsGrowAlongPaths {program : Program} {h : Hierarchies} {g : CallGraph}
    (built : CallGraph.ofProgram program h = .ok g) {id : RoutineId} {sites : RoutineSites}
    (found : g.sites? id = some sites) {first second : Site.Marker} (one : first ∈ sites.markers)
    (two : second ∈ sites.markers) (earlier : first.ordinal < second.ordinal)
    (inner : ∀ ref ∈ first.context.arms, ref ∈ second.context.arms) (table : EffectTable) :
    (EffectReport.ofMarker h table sites first).raises ≤
        (EffectReport.ofMarker h table sites second).raises ∧
      (EffectReport.ofMarker h table sites first).tags ≤
        (EffectReport.ofMarker h table sites second).tags := by
  obtain ⟨r, _, _, walked⟩ := CallGraph.routineOfSites built found
  obtain ⟨scope, events, walk, rfl⟩ := Collect.routineWalk walked
  have grows (category : Category) :
      Contribution.accumulate h table (.ofEvents r.id events) category (.upTo first) ≤
        Contribution.accumulate h table (.ofEvents r.id events) category (.upTo second) := by
    refine Contribution.accumulateFilterLe ?_ ?_
    · intro place listed admitted
      obtain ⟨event, there, context⟩ := RoutineSites.placeWalked listed
      simp only [SiteFilter.admits, Bool.and_eq_true, decide_eq_true_eq, Bool.not_eq_true'] at admitted ⊢
      refine ⟨Nat.lt_trans admitted.1 earlier, ?_⟩
      exact Collect.stillCompatible walk ⟨Nat.le_of_lt admitted.1, Nat.le_of_lt earlier⟩ there
        (RoutineSites.markerWalked one) (RoutineSites.markerWalked two) context rfl rfl inner admitted.2
    · intro _ guard active
      simp only [SiteFilter.applies, Bool.not_eq_true', Bool.eq_false_iff, ne_eq, Collect.insideTry]
        at active ⊢
      exact fun inside => active (inner _ inside)
  exact ⟨grows .raises, grows .tags⟩

def patrol : Routine :=
  { id := "patrol"
    body := some [
      .protect
        [.raise (some "OSError") [] .zero, .marker (some "watched") .zero,
          .branch [.mk (.literal "alarm") [.raise (some "Timeout") [] .zero]]
            (some [.expr (.call (.routine "fetch") [] .zero), .marker (some "quiet") .zero])]
        [.mk ["OSError"] []] none,
      .marker (some "home") .zero] }

def patrolGraph : CallGraph :=
  (CallGraph.ofProgram { Tree.salvage with routines := patrol :: Tree.salvage.routines }
    .builtin).toOption.getD ⟨[]⟩

def patrolSites : RoutineSites :=
  (patrolGraph.sites? "patrol").getD (.ofEvents "patrol" [])

theorem patrolReported :
    (EffectReport.all patrolGraph .builtin Tree.salvageTable).map
        (fun report => (report.label, report.raises.kinds?)) =
      [(some "watched", some ["OSError"]), (some "quiet", some ["EOFError", "OSError"]),
        (some "home", some ["EOFError", "Timeout"])] ∧
    ∃ first ∈ patrolSites.markers, ∃ second ∈ patrolSites.markers,
      first.label = some "watched" ∧ second.label = some "quiet" ∧
      (EffectReport.ofMarker .builtin Tree.salvageTable patrolSites first).raises ≤
        (EffectReport.ofMarker .builtin Tree.salvageTable patrolSites second).raises := by
  have built : CallGraph.ofProgram { Tree.salvage with routines := patrol :: Tree.salvage.routines }
      .builtin = .ok patrolGraph := by decide +kernel
  have found : patrolGraph.sites? "patrol" = some patrolSites := by decide +kernel
  have first := List.get_mem patrolSites.markers ⟨0, by decide +kernel⟩
  have second := List.get_mem patrolSites.markers ⟨1, by decide +kernel⟩
  refine ⟨by decide +kernel, _, first, _, second, by decide +kernel, by decide +kernel, ?_⟩
  exact (reportsGrowAlongPaths built found first second (by decide +kernel) (by decide +kernel)
    Tree.salvageTable).1

end EffectAudit
