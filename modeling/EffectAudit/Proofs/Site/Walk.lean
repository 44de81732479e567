import EffectAudit.Proofs.CallGraph.Built
import EffectAudit.Proofs.Program.Piece
import EffectAudit.Proofs.Tree
/-! The walk of a body as a relation, with one rule for each form that a piece of code takes. A use writes
down its own events; a statement that holds no other writes down those of its uses, then its own, and leaves
a scope behind; a construct puts its parts at their places. The walk succeeds just where the relation holds,
so whatever is true of every successful walk is shown by induction over the rules. -/
namespace EffectAudit

def Stmt.uses : Stmt → List Use
  | .expr value => value.uses
  | .define _ _ value _ => Expr.optionalUses value
  | .assign _ value _ => value.uses
  | .raise _ args _ => Expr.allUses args
  | .exit value => Expr.optionalUses value
  | _ => []

namespace Collect

inductive Notes (u : Setting) (s : Scope) (context : Site.Context) : Use → List Site.Event → Prop
  | unmeant {name : String} (meant : mentionTarget u s name = none) : Notes u s context (.name name) []
  | mention {name : String} {target : EdgeTarget} (meant : mentionTarget u s name = some target) :
    Notes u s context (.name name) [.edge .mention target context .zero]
  | routine {id : RoutineId} {routine : Routine} (found : lookup u id = .ok routine) :
    Notes u s context (.routine id) [.edge .mention (.routine id) context .zero]
  | call {id : RoutineId} {args : List Expr} {span : Span} {callee : Routine}
      (found : lookup u id = .ok callee) :
    Notes u s context (.call id args span)
      (.edge (if callee.kind.isDispatched then .method else .direct) (.routine id) context span ::
        argumentEvents u s callee args span)
  | callName {name : String} {span : Span} :
    Notes u s context (.callName name span)
      [.edge (callTarget u s name).1 (callTarget u s name).2 context span]
  | callValue {span : Span} :
    Notes u s context (.callValue span) [.edge .indirectLocal .computed context span]

inductive NotesAll (u : Setting) (s : Scope) (context : Site.Context) :
    List Use → List Site.Event → Prop
  | nil : NotesAll u s context [] []
  | cons {use : Use} {rest : List Use} {own others : List Site.Event} (one : Notes u s context use own)
      (more : NotesAll u s context rest others) : NotesAll u s context (use :: rest) (own ++ others)

section Uses

variable {u : Setting} {s : Scope} {context : Site.Context}

theorem notesAppend {first second : List Use} {events : List Site.Event} :
    NotesAll u s context (first ++ second) events ↔
      ∃ one two, NotesAll u s context first one ∧ NotesAll u s context second two ∧ events = one ++ two := by
  induction first generalizing events with
  | nil =>
    constructor
    · intro all
      exact ⟨[], events, .nil, all, rfl⟩
    · intro given
      obtain ⟨one, two, before, all, same⟩ := given
      cases before
      rw [same]
      exact all
  | cons use rest ih =>
    constructor
    · intro all
      cases all with
      | cons here later =>
        obtain ⟨one, two, before, after, rfl⟩ := ih.mp later
        exact ⟨_, two, .cons here before, after, (List.append_assoc ..).symm⟩
    · intro given
      obtain ⟨one, two, before, after, same⟩ := given
      cases before with
      | cons here later =>
        rw [same, List.append_assoc]
        exact .cons here (ih.mpr ⟨_, _, later, after, rfl⟩)

theorem notesSingle {use : Use} {events : List Site.Event} :
    NotesAll u s context [use] events ↔ Notes u s context use events := by
  constructor
  · intro all
    cases all with
    | cons one more =>
      cases more
      rwa [List.append_nil]
  · intro one
    rw [← List.append_nil events]
    exact .cons one .nil

theorem notesNil {events : List Site.Event} : NotesAll u s context [] events ↔ events = [] := by
  constructor
  · intro all
    cases all
    rfl
  · intro same
    rw [same]
    exact .nil

mutual

theorem exprNotes (value : Expr) {events : List Site.Event} :
    exprEvents u s context value = .ok events ↔ NotesAll u s context value.uses events := by
  cases value with
  | nil =>
    rw [Expr.uses, notesNil, exprEvents, Except.ok.injEq, eq_comm]
  | literal text =>
    rw [Expr.uses, notesNil, exprEvents, Except.ok.injEq, eq_comm]
  | name name =>
    rw [Expr.uses, notesSingle, exprEvents]
    constructor
    · intro walked
      split at walked
      · cases walked
        exact .unmeant ‹_›
      · cases walked
        exact .mention ‹_›
    · intro noted
      cases noted with
      | unmeant meant => rw [meant]
      | mention meant => rw [meant]
  | routine id =>
    rw [Expr.uses, notesSingle, exprEvents, bindOk]
    constructor
    · intro given
      obtain ⟨routine, found, last⟩ := given
      cases last
      exact .routine found
    · intro noted
      cases noted with
      | routine found => exact ⟨_, found, rfl⟩
  | call callee args span =>
    rw [Expr.uses, notesAppend, exprEvents, bindOk]
    constructor
    · intro given
      obtain ⟨called, one, onward⟩ := given
      obtain ⟨passed, more, last⟩ := bindOk.mp onward
      cases last
      exact ⟨_, _, (calleeNotes callee).mp one, (exprsNotes args).mp more, rfl⟩
    · intro given
      obtain ⟨called, passed, one, more, same⟩ := given
      rw [same]
      exact ⟨_, (calleeNotes callee).mpr one, bindOk.mpr ⟨_, (exprsNotes args).mpr more, rfl⟩⟩

theorem calleeNotes {args : List Expr} {span : Span} (callee : Callee) {events : List Site.Event} :
    calleeEvents u s context args span callee = .ok events ↔
      NotesAll u s context (callee.uses args span) events := by
  cases callee with
  | routine id =>
    rw [Callee.uses, notesSingle, calleeEvents, bindOk]
    constructor
    · intro given
      obtain ⟨callee, found, last⟩ := given
      cases last
      exact .call found
    · intro noted
      cases noted with
      | call found => exact ⟨_, found, rfl⟩
  | binding name =>
    rw [Callee.uses, notesSingle, calleeEvents]
    constructor
    · intro walked
      cases walked
      exact .callName
    · intro noted
      cases noted with
      | callName => rfl
  | computed value =>
    rw [Callee.uses, calleeEvents, bindOk]
    constructor
    · intro given
      obtain ⟨inner, met, last⟩ := given
      cases last
      exact .cons .callValue ((exprNotes value).mp met)
    · intro noted
      cases noted with
      | cons one more =>
        cases one with
        | callValue => exact ⟨_, (exprNotes value).mpr more, rfl⟩

theorem exprsNotes (values : List Expr) {events : List Site.Event} :
    exprsEvents u s context values = .ok events ↔ NotesAll u s context (Expr.allUses values) events := by
  cases values with
  | nil => rw [Expr.allUses, notesNil, exprsEvents, Except.ok.injEq, eq_comm]
  | cons value rest =>
    rw [Expr.allUses, notesAppend, exprsEvents, bindOk]
    constructor
    · intro given
      obtain ⟨first, one, onward⟩ := given
      obtain ⟨others, more, last⟩ := bindOk.mp onward
      cases last
      exact ⟨_, _, (exprNotes value).mp one, (exprsNotes rest).mp more, rfl⟩
    · intro given
      obtain ⟨first, others, one, more, same⟩ := given
      rw [same]
      exact ⟨_, (exprNotes value).mpr one, bindOk.mpr ⟨_, (exprsNotes rest).mpr more, rfl⟩⟩

end

theorem optionalNotes (value : Option Expr) {events : List Site.Event} :
    optionalEvents u s context value = .ok events ↔
      NotesAll u s context (Expr.optionalUses value) events := by
  cases value with
  | none => rw [Expr.optionalUses, notesNil, optionalEvents, Except.ok.injEq, eq_comm]
  | some value => exact exprNotes value

end Uses

def raisedAt (place : Place) : Option Kind → Raised
  | none => .again place.caught
  | some kind => .kind kind

def definedBindings (u : Setting) (s : Scope) (name : String) (span : Span) :
    Option ProcType → Option Expr → List Site.Event
  | some expected, some value => bindingEvents u s (.local name) expected value span
  | _, _ => []

def closingEvents (u : Setting) (place : Place) (s : Scope) : Stmt → List Site.Event
  | .define name type value span => definedBindings u s name span type value
  | .assign name value span =>
    match assignTarget u s name with
    | none => []
    | some (target, expected) => bindingEvents u s target expected value span
  | .raise kind _ span => [.raise (raisedAt place kind) place.context span]
  | .marker label span => [.marker label place.context span]
  | _ => []

def OnlyBindings (events : List Site.Event) : Prop :=
  ∀ event ∈ events, ∃ target expected value span, event = .binding target expected value span

section Bindings

variable {u : Setting} {s : Scope}

theorem bindingEventsOnly (target : BindingTarget) (expected : ProcType) (value : Expr) (span : Span) :
    OnlyBindings (bindingEvents u s target expected value span) := by
  intro event member
  unfold bindingEvents at member
  split at member
  · simp at member
  · split at member
    · simp at member
    · rw [List.mem_singleton] at member
      exact ⟨_, _, _, _, member⟩

theorem argumentEventsOnly (callee : Routine) (args : List Expr) (span : Span) :
    OnlyBindings (argumentEvents u s callee args span) := by
  intro event member
  obtain ⟨⟨param, arg⟩, _, inside⟩ := List.mem_flatMap.mp member
  dsimp only at inside
  split at inside
  · simp at inside
  · exact bindingEventsOnly _ _ _ _ event inside

theorem closingOnly {place : Place} {code : Stmt} (unraised : ∀ kind args span, code ≠ .raise kind args span)
    (unmarked : ∀ label span, code ≠ .marker label span) :
    OnlyBindings (closingEvents u place s code) := by
  unfold closingEvents
  split
  · unfold definedBindings
    split
    · exact bindingEventsOnly _ _ _ _
    · simp [OnlyBindings]
  · split
    · simp [OnlyBindings]
    · exact bindingEventsOnly _ _ _ _
  · exact absurd rfl (unraised _ _ _)
  · exact absurd rfl (unmarked _ _)
  · simp [OnlyBindings]

end Bindings

def settled (s : Scope) : Stmt → Scope
  | .define name type value _ => s.bind name (Tree.definedLocal s type value)
  | .assign name _ _ => s.reassign name
  | _ => s

def Admitted (u : Setting) : Stmt → Prop
  | .define _ type _ _ =>
    ∀ expected, type = some expected → checkClauses u.hierarchies expected.effects u.routine.id = .ok ()
  | .raise kind _ _ =>
    ∀ named, kind = some named → u.hierarchies.raises.checkKind named u.routine.id = .ok ()
  | .protect _ handlers _ => ∀ handler ∈ handlers, ∀ kind ∈ handler.kinds,
    u.hierarchies.raises.checkKind kind u.routine.id = .ok ()
  | _ => True

namespace Place

def enter (place : Place) (construct : Nat) (arm : Arm) : Place :=
  { place with context := place.context.enter construct arm }

def coverages (u : Setting) (handlers : List Handler) : List Coverage :=
  handlers.map fun handler => .ofHandler u.hierarchies.raises handler.kinds

def shielded (place : Place) (u : Setting) (construct : Nat) (handlers : List Handler) : Place :=
  { place with
    context := (place.context.enter construct .tryBody).guarded construct (coverages u handlers) }

def handling (place : Place) (u : Setting) (construct index : Nat) (kinds : List Kind) : Place :=
  { context := place.context.enter construct (.handler index)
    caught := .ofHandler u.hierarchies.raises kinds }

end Place

inductive Walk (u : Setting) : Place → Scope → Piece → Scope → List Site.Event → Prop
  | plain {place : Place} {s : Scope} {code : Stmt} {own : List Site.Event} (simple : code.isPlain = true)
      (admitted : Admitted u code) (noted : NotesAll u s place.context code.uses own) :
    Walk u place s (.stmt code) (settled s code) (own ++ closingEvents u place s code)
  | branch {place : Place} {s s' : Scope} {arms : List BranchArm} {otherwise : Option (List Stmt)}
      {events : List Site.Event} (chain : Walk u place s (.arms arms otherwise) s' events) :
    Walk u place s (.stmt (.branch arms otherwise)) s' events
  | loop {place : Place} {s s' : Scope} {cond : Expr} {body : List Stmt} {test round : List Site.Event}
      (tested : NotesAll u s place.context cond.uses test)
      (inside : Walk u (place.enter s.nextConstruct .loopBody) s.advance (.block body) s' round) :
    Walk u place s (.stmt (.loop cond body)) s' (test ++ round)
  | protect {place : Place} {s s₁ s₂ s₃ : Scope} {body : List Stmt} {handlers : List Handler}
      {cleanup : Option (List Stmt)} {first second third : List Site.Event}
      (admitted : Admitted u (.protect body handlers cleanup))
      (tried : Walk u (place.shielded u s.nextConstruct handlers) s.advance (.block body) s₁ first)
      (handled : Walk u place s₁ (.handlers s.nextConstruct 0 handlers) s₂ second)
      (cleaned : Walk u (place.enter s.nextConstruct .cleanup) s₂ (.optional cleanup) s₃ third) :
    Walk u place s (.stmt (.protect body handlers cleanup)) s₃ (first ++ second ++ third)
  | nested {place : Place} {s s' : Scope} {body : List Stmt} {events : List Site.Event}
      (inside : Walk u place s (.block body) s' events) : Walk u place s (.stmt (.block body)) s' events
  | nil {place : Place} {s : Scope} : Walk u place s (.block []) s []
  | cons {place : Place} {s s₁ s₂ : Scope} {code : Stmt} {rest : List Stmt} {own others : List Site.Event}
      (one : Walk u place s (.stmt code) s₁ own) (more : Walk u place s₁ (.block rest) s₂ others) :
    Walk u place s (.block (code :: rest)) s₂ (own ++ others)
  | absent {place : Place} {s : Scope} : Walk u place s (.optional none) s []
  | present {place : Place} {s s' : Scope} {body : List Stmt} {events : List Site.Event}
      (inside : Walk u place s (.block body) s' events) : Walk u place s (.optional (some body)) s' events
  | skipped {place : Place} {s s' : Scope} {otherwise : Option (List Stmt)} {events : List Site.Event}
      (last : Walk u place s (.optional otherwise) s' events) : Walk u place s (.arms [] otherwise) s' events
  | arm {place : Place} {s s₁ s₂ : Scope} {cond : Expr} {body : List Stmt} {rest : List BranchArm}
      {otherwise : Option (List Stmt)} {test own others : List Site.Event}
      (tested : NotesAll u s place.context cond.uses test)
      (taken : Walk u (place.enter s.nextConstruct (.branch 0)) s.advance (.block body) s₁ own)
      (more : Walk u (place.enter s.nextConstruct (.branch 1)) s₁ (.arms rest otherwise) s₂ others) :
    Walk u place s (.arms (.mk cond body :: rest) otherwise) s₂ (test ++ own ++ others)
  | unhandled {place : Place} {s : Scope} {construct index : Nat} :
    Walk u place s (.handlers construct index []) s []
  | handler {place : Place} {s s₁ s₂ : Scope} {construct index : Nat} {kinds : List Kind}
      {body : List Stmt} {rest : List Handler} {own others : List Site.Event}
      (one : Walk u (place.handling u construct index kinds) s (.block body) s₁ own)
      (more : Walk u place s₁ (.handlers construct (index + 1) rest) s₂ others) :
    Walk u place s (.handlers construct index (.mk kinds body :: rest)) s₂ (own ++ others)

def pieceEvents (u : Setting) (place : Place) (s : Scope) : Piece → Except Error (Scope × List Site.Event)
  | .stmt code => stmtEvents u place s code
  | .block body => blockEvents u place s body
  | .optional none => .ok (s, [])
  | .optional (some body) => blockEvents u place s body
  | .arms arms otherwise => stmtEvents u place s (.branch arms otherwise)
  | .handlers construct index handlers => handlersEvents u place construct index s handlers

section Statements

variable {u : Setting} {place : Place} {s s' : Scope} {events : List Site.Event}

theorem handlerCoveragesOk {handlers : List Handler} {coverages : List Coverage} :
    handlerCoverages u handlers = .ok coverages ↔
      (∀ handler ∈ handlers, ∀ kind ∈ handler.kinds,
        u.hierarchies.raises.checkKind kind u.routine.id = .ok ()) ∧
      coverages = Place.coverages u handlers := by
  induction handlers generalizing coverages with
  | nil => simp [handlerCoverages, Place.coverages, eq_comm]
  | cons handler rest ih =>
    rw [handlerCoverages, bindOk, List.forall_mem_cons]
    constructor
    · intro given
      obtain ⟨_, checked, onward⟩ := given
      obtain ⟨others, more, last⟩ := bindOk.mp onward
      obtain ⟨legal, rfl⟩ := ih.mp more
      cases last
      exact ⟨⟨forMOk.mp checked, legal⟩, rfl⟩
    · intro given
      obtain ⟨⟨checked, legal⟩, same⟩ := given
      rw [same]
      exact ⟨(), forMOk.mpr checked, bindOk.mpr ⟨_, ih.mpr ⟨legal, rfl⟩, rfl⟩⟩

theorem defineOk {name : String} {type : Option ProcType} {value : Option Expr} {span : Span} :
    defineEvents u s place.context name type value span = .ok (s', events) ↔
      Admitted u (.define name type value span) ∧
      ∃ own, NotesAll u s place.context (Expr.optionalUses value) own ∧
        s.bind name (Tree.definedLocal s type value) = s' ∧
        own ++ definedBindings u s name span type value = events := by
  unfold defineEvents
  cases type with
  | none =>
    have unbound : definedBindings u s name span none value = [] := by
      cases value <;> rfl
    simp [bindOk, optionalNotes, Admitted, unbound, Tree.definedLocal, pure, Except.pure]
  | some expected =>
    constructor
    · intro walked
      obtain ⟨_, checked, onward⟩ := bindOk.mp walked
      obtain ⟨own, met, last⟩ := bindOk.mp onward
      cases last
      exact ⟨by simpa [Admitted] using checked, own, (optionalNotes value).mp met, rfl,
        by cases value <;> rfl⟩
    · intro given
      obtain ⟨admitted, own, met, rfl, rfl⟩ := given
      exact bindOk.mpr ⟨(), admitted expected rfl,
        bindOk.mpr ⟨own, (optionalNotes value).mpr met, by cases value <;> rfl⟩⟩

theorem raiseOk {kind : Option Kind} {args : List Expr} {span : Span} :
    raiseEvents u s place kind args span = .ok events ↔
      Admitted u (.raise kind args span) ∧ ∃ own, NotesAll u s place.context (Expr.allUses args) own ∧
        own ++ [.raise (raisedAt place kind) place.context span] = events := by
  unfold raiseEvents
  cases kind with
  | none => simp [bindOk, exprsNotes, Admitted, raisedAt, pure, Except.pure]
  | some kind =>
    constructor
    · intro walked
      obtain ⟨own, met, onward⟩ := bindOk.mp walked
      obtain ⟨_, checked, last⟩ := bindOk.mp onward
      cases last
      exact ⟨by simpa [Admitted] using checked, own, (exprsNotes args).mp met, rfl⟩
    · intro given
      obtain ⟨admitted, own, met, rfl⟩ := given
      exact bindOk.mpr ⟨own, (exprsNotes args).mpr met, bindOk.mpr ⟨(), admitted kind rfl, rfl⟩⟩

theorem plainOk {code : Stmt} (simple : code.isPlain = true) :
    stmtEvents u place s code = .ok (s', events) ↔
      Admitted u code ∧ ∃ own, NotesAll u s place.context code.uses own ∧
        settled s code = s' ∧ own ++ closingEvents u place s code = events := by
  cases code, simple using Stmt.plainCases with
  | expr value =>
    simp [stmtEvents, bindOk, exprNotes, Admitted, Stmt.uses, settled, closingEvents, pure, Except.pure]
  | define name type value span =>
    rw [stmtEvents]
    exact defineOk
  | assign name value span =>
    rw [stmtEvents, assignEvents, bindOk]
    constructor
    · intro given
      obtain ⟨own, met, last⟩ := given
      cases last
      exact ⟨trivial, own, (exprNotes value).mp met, rfl, rfl⟩
    · intro given
      obtain ⟨_, own, met, rfl, rfl⟩ := given
      exact ⟨own, (exprNotes value).mpr met, rfl⟩
  | raise kind args span =>
    simp [stmtEvents, bindOk, raiseOk, Stmt.uses, settled, closingEvents, pure, Except.pure, and_assoc]
  | exit value =>
    simp [stmtEvents, bindOk, optionalNotes, Admitted, Stmt.uses, settled, closingEvents, pure,
      Except.pure]
  | marker label span =>
    simp [stmtEvents, Admitted, Stmt.uses, settled, closingEvents, notesNil]

/- The `else` is walked where all arms are skipped, so it goes with the last of them. -/
theorem branchCons {cond : Expr} {body : List Stmt} {rest : List BranchArm}
    {otherwise : Option (List Stmt)} :
    stmtEvents u place s (.branch (.mk cond body :: rest) otherwise) = (do
      let test ← exprEvents u s place.context cond
      let (after, own) ← blockEvents u (place.enter s.nextConstruct (.branch 0)) s.advance body
      let (last, others) ← stmtEvents u (place.enter s.nextConstruct (.branch 1)) after
        (.branch rest otherwise)
      return (last, test ++ own ++ others)) := by
  cases otherwise with
  | none => simp [stmtEvents, armsEvents, Place.enter]
  | some body => simp [stmtEvents, armsEvents, Place.enter]

theorem walkOk {piece : Piece} (walk : Walk u place s piece s' events) :
    pieceEvents u place s piece = .ok (s', events) := by
  induction walk with
  | plain simple admitted noted => exact (plainOk simple).mpr ⟨admitted, _, noted, rfl, rfl⟩
  | branch chain ih => exact ih
  | loop tested inside ih =>
    rw [pieceEvents, stmtEvents]
    exact bindOk.mpr ⟨_, (exprNotes _).mpr tested, bindOk.mpr ⟨_, ih, rfl⟩⟩
  | @protect place s s₁ s₂ s₃ body handlers cleanup first second third admitted tried handled cleaned
      one two three =>
    rw [pieceEvents, stmtEvents]
    refine bindOk.mpr ⟨_, handlerCoveragesOk.mpr ⟨admitted, rfl⟩, ?_⟩
    refine bindOk.mpr ⟨_, one, bindOk.mpr ⟨_, two, ?_⟩⟩
    cases cleanup with
    | none =>
      cases three
      rw [List.append_nil]
      rfl
    | some cleanup => exact bindOk.mpr ⟨_, three, rfl⟩
  | nested inside ih =>
    rw [pieceEvents, stmtEvents]
    exact ih
  | nil =>
    rw [pieceEvents, blockEvents]
  | cons one more first rest =>
    rw [pieceEvents, blockEvents]
    exact bindOk.mpr ⟨_, first, bindOk.mpr ⟨_, rest, rfl⟩⟩
  | absent => rfl
  | present inside ih => exact ih
  | @skipped place s s' otherwise events last ih =>
    rw [pieceEvents, stmtEvents, armsEvents]
    cases otherwise with
    | none => exact ih
    | some body => exact bindOk.mpr ⟨_, rfl, bindOk.mpr ⟨_, ih, rfl⟩⟩
  | arm tested taken more first rest =>
    rw [pieceEvents, branchCons]
    exact bindOk.mpr ⟨_, (exprNotes _).mpr tested, bindOk.mpr ⟨_, first, bindOk.mpr ⟨_, rest, rfl⟩⟩⟩
  | unhandled => rw [pieceEvents, handlersEvents]
  | handler one more first rest =>
    rw [pieceEvents, handlersEvents]
    exact bindOk.mpr ⟨_, first, bindOk.mpr ⟨_, rest, rfl⟩⟩

theorem walkOfOk {piece : Piece} (walked : pieceEvents u place s piece = .ok (s', events)) :
    Walk u place s piece s' events := by
  induction piece using Piece.induct generalizing place s s' events with
  | plain code simple =>
    obtain ⟨admitted, own, noted, rfl, rfl⟩ := (plainOk simple).mp walked
    exact .plain simple admitted noted
  | branch arms otherwise ih => exact .branch (ih walked)
  | loop cond body ih =>
    rw [pieceEvents, stmtEvents] at walked
    obtain ⟨test, tested, onward⟩ := bindOk.mp walked
    obtain ⟨⟨after, round⟩, met, last⟩ := bindOk.mp onward
    cases last
    exact .loop ((exprNotes cond).mp tested) (ih met)
  | protect body handlers cleanup tried handled cleaned =>
    rw [pieceEvents, stmtEvents] at walked
    obtain ⟨coverages, covered, onward⟩ := bindOk.mp walked
    obtain ⟨admitted, rfl⟩ := handlerCoveragesOk.mp covered
    obtain ⟨⟨s₁, first⟩, one, onward⟩ := bindOk.mp onward
    obtain ⟨⟨s₂, second⟩, two, onward⟩ := bindOk.mp onward
    cases cleanup with
    | none =>
      cases onward
      rw [← List.append_nil (first ++ second)]
      exact .protect admitted (tried one) (handled _ two) .absent
    | some cleanup =>
      obtain ⟨⟨s₃, third⟩, three, last⟩ := bindOk.mp onward
      cases last
      exact .protect admitted (tried one) (handled _ two) (cleaned three)
  | nested body ih =>
    rw [pieceEvents, stmtEvents] at walked
    exact .nested (ih walked)
  | nil =>
    rw [pieceEvents, blockEvents] at walked
    cases walked
    exact .nil
  | cons code rest one more =>
    rw [pieceEvents, blockEvents] at walked
    obtain ⟨⟨after, own⟩, first, onward⟩ := bindOk.mp walked
    obtain ⟨⟨final, others⟩, second, last⟩ := bindOk.mp onward
    cases last
    exact .cons (one first) (more second)
  | absent =>
    cases walked
    exact .absent
  | present body ih => exact .present (ih walked)
  | skipped otherwise ih =>
    rw [pieceEvents, stmtEvents, armsEvents] at walked
    obtain ⟨⟨inner, after, own⟩, met, onward⟩ := bindOk.mp walked
    cases met
    cases otherwise with
    | none => exact .skipped (ih onward)
    | some body =>
      obtain ⟨⟨final, others⟩, met, last⟩ := bindOk.mp onward
      cases last
      exact .skipped (ih met)
  | arm cond body rest otherwise taken more =>
    rw [pieceEvents, branchCons] at walked
    obtain ⟨test, tested, onward⟩ := bindOk.mp walked
    obtain ⟨⟨after, own⟩, one, onward⟩ := bindOk.mp onward
    obtain ⟨⟨final, others⟩, two, last⟩ := bindOk.mp onward
    cases last
    exact .arm ((exprNotes cond).mp tested) (taken one) (more two)
  | unhandled construct index =>
    rw [pieceEvents, handlersEvents] at walked
    cases walked
    exact .unhandled
  | handler construct index kinds body rest one more =>
    rw [pieceEvents, handlersEvents] at walked
    obtain ⟨⟨after, own⟩, first, onward⟩ := bindOk.mp walked
    obtain ⟨⟨final, others⟩, second, last⟩ := bindOk.mp onward
    cases last
    exact .handler (one first) (more second)

theorem blockWalk {body : List Stmt} :
    blockEvents u place s body = .ok (s', events) ↔ Walk u place s (.block body) s' events :=
  ⟨fun walked => walkOfOk walked, walkOk⟩

theorem walkUnique {piece : Piece} (walk : Walk u place s piece s' events) {after : Scope}
    {others : List Site.Event} (again : Walk u place s piece after others) :
    after = s' ∧ others = events := by
  have same := (walkOk again).symm.trans (walkOk walk)
  simpa using same

theorem walkSplit {body rest : List Stmt} (walk : Walk u place s (.block (body ++ rest)) s' events) :
    ∃ middle first others, Walk u place s (.block body) middle first ∧
      Walk u place middle (.block rest) s' others ∧ events = first ++ others := by
  induction body generalizing s events with
  | nil => exact ⟨s, [], events, .nil, walk, rfl⟩
  | cons code body ih =>
    cases walk with
    | cons one more =>
      obtain ⟨middle, first, others, before, after, rfl⟩ := ih more
      exact ⟨middle, _, others, .cons one before, after, (List.append_assoc ..).symm⟩

theorem routineWalk {program : Program} {h : Hierarchies} {r : Routine} {sites : RoutineSites}
    (ok : routineSites program h r = .ok sites) :
    ∃ after events, Walk ⟨program, h, r⟩ {} {} (.block (r.body.getD [])) after events ∧
      sites = .ofEvents r.id events := by
  obtain ⟨after, events, walked, same⟩ := routineSitesOk ok
  exact ⟨after, events, blockWalk.mp walked, same⟩

end Statements
end Collect
end EffectAudit
