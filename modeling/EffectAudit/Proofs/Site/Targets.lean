import EffectAudit.Proofs.Site.Walk
/-! Every routine that a call or mention leads to is a routine of the unit. The walk has looked it up,
either where it is named or where the local that stands for it was defined. -/
namespace EffectAudit

def Site.Event.target? : Site.Event → Option RoutineId
  | .edge _ target _ _ => target.routine?
  | .raise .. => none
  | .marker .. => none
  | .binding .. => none

namespace Collect

variable {u : Setting}

def Listed (u : Setting) (id : RoutineId) : Prop := ∃ r, u.program.routine? id = some r

def ScopeListed (u : Setting) (s : Scope) : Prop :=
  ∀ name item id, s.find? name = some item → item.origin = some id → Listed u id

def EventsListed (u : Setting) (events : List Site.Event) : Prop :=
  ∀ event ∈ events, ∀ id, event.target? = some id → Listed u id

theorem eventsListedNil : EventsListed u [] := by
  intro event member
  simp at member

theorem eventsListedAppend {first second : List Site.Event} (one : EventsListed u first)
    (two : EventsListed u second) : EventsListed u (first ++ second) :=
  List.forall_mem_append.mpr ⟨one, two⟩

theorem eventsListedCons {event : Site.Event} {rest : List Site.Event}
    (one : ∀ id, event.target? = some id → Listed u id) (two : EventsListed u rest) :
    EventsListed u (event :: rest) :=
  List.forall_mem_cons.mpr ⟨one, two⟩

theorem emptyListed : ScopeListed u {} := by
  intro name item id there
  simp [Scope.find?] at there

theorem bindListed {s : Scope} (scope : ScopeListed u s) (name : String) {item : Local}
    (own : ∀ id, item.origin = some id → Listed u id) : ScopeListed u (s.bind name item) := by
  intro x found id there origin
  unfold Scope.bind Scope.find? at there
  rw [List.lookup_cons] at there
  split at there
  · cases there
    exact own id origin
  · exact scope x found id there origin

theorem reassignListed {s : Scope} (scope : ScopeListed u s) (name : String) :
    ScopeListed u (s.reassign name) := by
  unfold Scope.reassign
  split
  · exact bindListed scope name (by simp)
  · exact scope

theorem lookupListed {id : RoutineId} {r : Routine} (ok : lookup u id = .ok r) : Listed u id := by
  unfold lookup at ok
  split at ok
  · next found => exact ⟨_, found⟩
  · contradiction

theorem mentionListed {s : Scope} (scope : ScopeListed u s) {name : String} {target : EdgeTarget}
    (meant : mentionTarget u s name = some target) {id : RoutineId}
    (leads : target.routine? = some id) : Listed u id := by
  unfold mentionTarget at meant
  split at meant
  · cases meant
    simp [EdgeTarget.routine?] at leads
  · next found =>
    cases meant
    exact scope name _ id found leads
  · contradiction
  · split at meant
    · obtain ⟨_, _, rfl⟩ := Option.map_eq_some_iff.mp meant
      simp [EdgeTarget.routine?] at leads
    · obtain ⟨_, _, rfl⟩ := Option.map_eq_some_iff.mp meant
      simp [EdgeTarget.routine?] at leads

theorem callListed {s : Scope} (scope : ScopeListed u s) {name : String} {id : RoutineId}
    (leads : (callTarget u s name).2.routine? = some id) : Listed u id := by
  unfold callTarget at leads
  split at leads
  · simp [EdgeTarget.routine?] at leads
  · cases meant : mentionTarget u s name with
    | none => simp [meant, EdgeTarget.routine?] at leads
    | some target =>
      rw [meant] at leads
      exact mentionListed scope meant leads

theorem bindingsListed {events : List Site.Event} (only : OnlyBindings events) : EventsListed u events := by
  intro event member
  obtain ⟨target, expected, value, span, rfl⟩ := only event member
  simp [Site.Event.target?]

theorem closingListed (place : Place) (s : Scope) (code : Stmt) :
    EventsListed u (closingEvents u place s code) := by
  cases code with
  | raise kind args span => exact eventsListedCons (by simp [Site.Event.target?]) eventsListedNil
  | marker label span => exact eventsListedCons (by simp [Site.Event.target?]) eventsListedNil
  | _ => exact bindingsListed (closingOnly (by simp) (by simp))

theorem notesListed {s : Scope} (scope : ScopeListed u s) {context : Site.Context} {uses : List Use}
    {events : List Site.Event} (noted : NotesAll u s context uses events) : EventsListed u events := by
  induction noted with
  | nil => exact eventsListedNil
  | cons one more ih =>
    refine eventsListedAppend ?_ ih
    cases one with
    | unmeant meant => exact eventsListedNil
    | mention meant =>
      exact eventsListedCons (fun id leads => mentionListed scope meant leads) eventsListedNil
    | routine found =>
      refine eventsListedCons ?_ eventsListedNil
      intro id leads
      cases leads
      exact lookupListed found
    | call found =>
      refine eventsListedCons ?_ (bindingsListed (argumentEventsOnly _ _ _))
      intro id leads
      cases leads
      exact lookupListed found
    | callName => exact eventsListedCons (fun id leads => callListed scope leads) eventsListedNil
    | callValue =>
      exact eventsListedCons (by simp [Site.Event.target?, EdgeTarget.routine?]) eventsListedNil

theorem originListed {s : Scope} (scope : ScopeListed u s) {context : Site.Context} {value : Expr}
    {events : List Site.Event} (noted : NotesAll u s context value.uses events) {id : RoutineId}
    (origin : originOf s value = some id) : Listed u id := by
  cases value with
  | routine other =>
    cases origin
    rw [Expr.uses, notesSingle] at noted
    cases noted with
    | routine found => exact lookupListed found
  | name name =>
    dsimp only [originOf] at origin
    split at origin
    · next found => exact scope name _ id found origin
    · contradiction
  | nil => simp [originOf] at origin
  | literal text => simp [originOf] at origin
  | call callee args span => simp [originOf] at origin

theorem settledListed {s : Scope} (scope : ScopeListed u s) {context : Site.Context} {code : Stmt}
    {events : List Site.Event} (noted : NotesAll u s context code.uses events) :
    ScopeListed u (settled s code) := by
  unfold settled
  split
  · next name type value span =>
    refine bindListed scope name ?_
    intro id origin
    cases type with
    | none =>
      obtain ⟨value, rfl, stands⟩ := Option.bind_eq_some_iff.mp origin
      exact originListed scope noted stands
    | some expected => simp [Tree.definedLocal] at origin
  · exact reassignListed scope _
  · exact scope

theorem walkListed {place : Place} {s s' : Scope} {piece : Piece} {events : List Site.Event}
    (walk : Walk u place s piece s' events) (scope : ScopeListed u s) :
    ScopeListed u s' ∧ EventsListed u events := by
  induction walk with
  | plain simple admitted noted =>
    exact ⟨settledListed scope noted, eventsListedAppend (notesListed scope noted) (closingListed _ _ _)⟩
  | branch chain ih => exact ih scope
  | loop tested inside ih =>
    obtain ⟨after, round⟩ := ih scope
    exact ⟨after, eventsListedAppend (notesListed scope tested) round⟩
  | protect admitted tried handled cleaned attempt handler last =>
    obtain ⟨left, first⟩ := attempt scope
    obtain ⟨caught, second⟩ := handler left
    obtain ⟨after, third⟩ := last caught
    exact ⟨after, eventsListedAppend (eventsListedAppend first second) third⟩
  | nested inside ih => exact ih scope
  | nil => exact ⟨scope, eventsListedNil⟩
  | cons one more first rest =>
    obtain ⟨middle, own⟩ := first scope
    obtain ⟨after, others⟩ := rest middle
    exact ⟨after, eventsListedAppend own others⟩
  | absent => exact ⟨scope, eventsListedNil⟩
  | present inside ih => exact ih scope
  | skipped last ih => exact ih scope
  | arm tested taken more first later =>
    obtain ⟨middle, own⟩ := first scope
    obtain ⟨after, others⟩ := later middle
    exact ⟨after, eventsListedAppend (eventsListedAppend (notesListed scope tested) own) others⟩
  | unhandled => exact ⟨scope, eventsListedNil⟩
  | handler one more first rest =>
    obtain ⟨middle, own⟩ := first scope
    obtain ⟨after, others⟩ := rest middle
    exact ⟨after, eventsListedAppend own others⟩

end Collect

theorem CallGraph.targetListed {program : Program} {h : Hierarchies} {g : CallGraph}
    (built : CallGraph.ofProgram program h = .ok g) {caller : RoutineId} {sites : RoutineSites}
    (found : g.sites? caller = some sites) {site : Site.Edge} (listed : site ∈ sites.edges)
    {id : RoutineId} (leads : site.target.routine? = some id) : ∃ r ∈ program.routines, r.id = id := by
  obtain ⟨r, _, _, walked⟩ := CallGraph.routineOfSites built found
  obtain ⟨scope, events, walk, rfl⟩ := Collect.routineWalk walked
  obtain ⟨⟨event, ordinal⟩, inside, here⟩ := List.mem_filterMap.mp listed
  have target : event.target? = some id := by
    cases event with
    | edge kind target context span =>
      cases here
      exact leads
    | raise raised context span => simp [Site.Event.edge?] at here
    | marker label context span => simp [Site.Event.edge?] at here
    | binding target expected value span => simp [Site.Event.edge?] at here
  obtain ⟨r', there⟩ := (Collect.walkListed walk Collect.emptyListed).2 event
    (List.fst_mem_of_mem_zipIdx inside) id target
  exact ⟨r', List.mem_of_find?_eq_some there, by simpa using List.find?_some there⟩

end EffectAudit
