import EffectAudit.Proofs.Site.Walk
/-! Where the walk puts its sites. A construct takes the next number, so the numbers taken by a piece of
code form an interval, and pieces that follow each other take intervals that follow each other. A site
of the piece stands at the place of the piece, further inside only in constructs of its interval. -/
namespace EffectAudit

def Site.Event.context? : Site.Event → Option Site.Context
  | .edge _ _ context _ => some context
  | .raise _ context _ => some context
  | .marker _ context _ => some context
  | .binding .. => none

def Site.Event.isMarker : Site.Event → Bool
  | .marker .. => true
  | _ => false

namespace Collect

def Within (outer : Site.Context) (low high : Nat) (inner : Site.Context) : Prop :=
  ∃ extra, inner.arms = outer.arms ++ extra ∧ ∀ ref ∈ extra, low ≤ ref.construct ∧ ref.construct < high

section Within

variable {outer middle inner : Site.Context} {low low' high high' : Nat}

theorem withinSelf (outer : Site.Context) (low high : Nat) : Within outer low high outer :=
  ⟨[], by simp, by simp⟩

theorem withinTrans (first : Within outer low high middle) (second : Within middle low' high' inner)
    (lower : low ≤ low') (upper : high ≤ high') : Within outer low high' inner := by
  obtain ⟨extra, arms, range⟩ := first
  obtain ⟨more, arms', range'⟩ := second
  refine ⟨extra ++ more, by rw [arms', arms, List.append_assoc], ?_⟩
  intro ref member
  rcases List.mem_append.mp member with inside | inside
  · have := range ref inside
    omega
  · have := range' ref inside
    omega

theorem withinWiden (within : Within outer low' high inner) (lower : low ≤ low') (upper : high ≤ high') :
    Within outer low high' inner := by
  obtain ⟨extra, arms, range⟩ := within
  refine ⟨extra, arms, ?_⟩
  intro ref member
  have := range ref member
  omega

theorem withinArm (outer : Site.Context) {construct : Nat} (arm : Arm) (lower : low ≤ construct)
    (upper : construct < high) : Within outer low high (outer.enter construct arm) := by
  refine ⟨[⟨construct, arm⟩], rfl, ?_⟩
  intro ref member
  rw [List.mem_singleton.mp member]
  exact ⟨lower, upper⟩

end Within

def EventsAt (context : Site.Context) (events : List Site.Event) : Prop :=
  ∀ event ∈ events, (∀ c, event.context? = some c → c = context) ∧ event.isMarker = false

section Expressions

variable {u : Setting} {s : Scope} {context : Site.Context}

theorem eventsAtNil (context : Site.Context) : EventsAt context [] := by
  simp [EventsAt]

theorem eventsAtAppend {first second : List Site.Event} (one : EventsAt context first)
    (two : EventsAt context second) : EventsAt context (first ++ second) :=
  List.forall_mem_append.mpr ⟨one, two⟩

theorem eventsAtSingle {event : Site.Event} (there : event.context? = some context)
    (plain : event.isMarker = false) : EventsAt context [event] := by
  intro other member
  rw [List.mem_singleton.mp member]
  refine ⟨?_, plain⟩
  intro c found
  rw [there] at found
  exact (Option.some.inj found).symm

theorem bindingsAt {events : List Site.Event} (only : OnlyBindings events) : EventsAt context events := by
  intro event member
  obtain ⟨target, expected, value, span, rfl⟩ := only event member
  exact ⟨by simp [Site.Event.context?], rfl⟩

theorem notesAt {uses : List Use} {events : List Site.Event} (noted : NotesAll u s context uses events) :
    EventsAt context events := by
  induction noted with
  | nil => exact eventsAtNil context
  | cons one more ih =>
    refine eventsAtAppend ?_ ih
    cases one with
    | unmeant meant => exact eventsAtNil context
    | mention meant => exact eventsAtSingle rfl rfl
    | routine found => exact eventsAtSingle rfl rfl
    | call found => exact eventsAtAppend (eventsAtSingle rfl rfl) (bindingsAt (argumentEventsOnly _ _ _))
    | callName => exact eventsAtSingle rfl rfl
    | callValue => exact eventsAtSingle rfl rfl

theorem closingAt {place : Place} {code : Stmt} (unmarked : ∀ label span, code ≠ .marker label span) :
    EventsAt place.context (closingEvents u place s code) := by
  cases code with
  | raise kind args span => exact eventsAtSingle rfl rfl
  | marker label span => exact absurd rfl (unmarked _ _)
  | _ => exact bindingsAt (closingOnly (by simp) (by simp))

theorem closingContext {place : Place} {code : Stmt} {event : Site.Event}
    (member : event ∈ closingEvents u place s code) {c : Site.Context} (found : event.context? = some c) :
    c = place.context := by
  by_cases marker : ∃ label span, code = .marker label span
  · obtain ⟨label, span, rfl⟩ := marker
    rw [closingEvents, List.mem_singleton] at member
    rw [member] at found
    exact (Option.some.inj found).symm
  · push Not at marker
    exact (closingAt marker event member).1 c found

end Expressions

structure Numbered (outer : Site.Context) (s s' : Scope) (events : List Site.Event) : Prop where
  grows : s.nextConstruct ≤ s'.nextConstruct
  within : ∀ event ∈ events, ∀ c, event.context? = some c →
    Within outer s.nextConstruct s'.nextConstruct c

structure HandlersNumbered (outer : Site.Context) (construct index : Nat) (s s' : Scope)
    (events : List Site.Event) : Prop where
  grows : s.nextConstruct ≤ s'.nextConstruct
  within : ∀ event ∈ events, ∀ c, event.context? = some c → ∃ position, index ≤ position ∧
    Within (outer.enter construct (.handler position)) s.nextConstruct s'.nextConstruct c

def PieceNumbered (outer : Site.Context) (s : Scope) : Piece → Scope → List Site.Event → Prop
  | .handlers construct index _ => HandlersNumbered outer construct index s
  | _ => Numbered outer s

section Statements

variable {u : Setting} {outer : Site.Context} {s s' after : Scope} {events first second : List Site.Event}

theorem numberedAt (there : EventsAt outer events) : Numbered outer s s events := by
  refine ⟨Nat.le_refl _, ?_⟩
  intro event member c found
  rw [(there event member).1 c found]
  exact withinSelf outer _ _

theorem numberedFrom (later : Numbered outer s' after events)
    (lower : s.nextConstruct ≤ s'.nextConstruct) : Numbered outer s after events := by
  refine ⟨Nat.le_trans lower later.grows, ?_⟩
  intro event member c found
  exact withinWiden (later.within event member c found) lower (Nat.le_refl _)

theorem numberedEnter {construct : Nat} {arm : Arm}
    (inside : Numbered (outer.enter construct arm) s' after events) (lower : s.nextConstruct ≤ construct)
    (before : construct < s'.nextConstruct) : Numbered outer s after events := by
  have grows := inside.grows
  refine ⟨by omega, ?_⟩
  intro event member c found
  exact withinTrans (withinArm outer arm lower (Nat.lt_of_lt_of_le before grows))
    (inside.within event member c found) (by omega) (Nat.le_refl _)

theorem numberedJoin (one : Numbered outer s s' first) (two : Numbered outer s after second)
    (grows : s'.nextConstruct ≤ after.nextConstruct) : Numbered outer s after (first ++ second) := by
  refine ⟨two.grows, ?_⟩
  intro event member c found
  rcases List.mem_append.mp member with inside | inside
  · exact withinWiden (one.within event inside c found) (Nat.le_refl _) grows
  · exact two.within event inside c found

theorem numberedAppend (one : Numbered outer s s' first) (two : Numbered outer s' after second) :
    Numbered outer s after (first ++ second) :=
  numberedJoin one (numberedFrom two one.grows) two.grows

theorem handlersEnter {construct index : Nat}
    (handled : HandlersNumbered outer construct index s' after events) (lower : s.nextConstruct ≤ construct)
    (before : construct < s'.nextConstruct) : Numbered outer s after events := by
  have grows := handled.grows
  refine ⟨by omega, ?_⟩
  intro event member c found
  obtain ⟨position, _, within⟩ := handled.within event member c found
  exact withinTrans (withinArm outer _ lower (Nat.lt_of_lt_of_le before grows)) within (by omega)
    (Nat.le_refl _)

theorem settledNumber (s : Scope) (code : Stmt) : (settled s code).nextConstruct = s.nextConstruct := by
  unfold settled
  split
  · rfl
  · unfold Scope.reassign
    split <;> rfl
  · rfl

theorem walkNumbered {place : Place} {piece : Piece} (walk : Walk u place s piece s' events) :
    PieceNumbered place.context s piece s' events := by
  induction walk with
  | @plain place s code own simple admitted noted =>
    refine ⟨Nat.le_of_eq (settledNumber s code).symm, ?_⟩
    intro event member c found
    have there : c = place.context := by
      rcases List.mem_append.mp member with inside | inside
      · exact (notesAt noted event inside).1 c found
      · exact closingContext inside found
    rw [there]
    exact withinSelf _ _ _
  | branch chain ih => exact ih
  | loop tested inside ih =>
    exact numberedAppend (numberedAt (notesAt tested)) (numberedEnter ih (Nat.le_refl _) (Nat.lt_succ_self _))
  | @protect place s s₁ s₂ s₃ body handlers cleanup first second third admitted tried handled cleaned
      attempt handler last =>
    have inside : Numbered (place.context.enter s.nextConstruct .tryBody) s.advance s₁ first :=
      ⟨attempt.grows, attempt.within⟩
    have started : s.nextConstruct < s₁.nextConstruct := inside.grows
    have both : Numbered place.context s s₂ (first ++ second) :=
      numberedJoin (numberedEnter inside (Nat.le_refl _) (Nat.lt_succ_self _))
        (handlersEnter handler (Nat.le_refl _) started) handler.grows
    exact numberedJoin both
      (numberedEnter last (Nat.le_refl _) (Nat.lt_of_lt_of_le started handler.grows)) last.grows
  | nested inside ih => exact ih
  | nil => exact numberedAt (eventsAtNil _)
  | cons one more first rest => exact numberedAppend first rest
  | absent => exact numberedAt (eventsAtNil _)
  | present inside ih => exact ih
  | skipped last ih => exact ih
  | @arm place s s₁ s₂ cond body rest otherwise test own others tested taken more inside later =>
    have started : s.nextConstruct < s₁.nextConstruct := inside.grows
    have first : Numbered place.context s s₁ (test ++ own) :=
      numberedAppend (numberedAt (notesAt tested)) (numberedEnter inside (Nat.le_refl _) (Nat.lt_succ_self _))
    exact numberedJoin first (numberedEnter later (Nat.le_refl _) started) later.grows
  | unhandled => exact ⟨Nat.le_refl _, by simp⟩
  | @handler place s s₁ s₂ construct index kinds body rest own others one more first later =>
    refine ⟨Nat.le_trans first.grows later.grows, ?_⟩
    intro event member c found
    rcases List.mem_append.mp member with inside | inside
    · exact ⟨index, Nat.le_refl _,
        withinWiden (first.within event inside c found) (Nat.le_refl _) later.grows⟩
    · obtain ⟨position, reached, within⟩ := later.within event inside c found
      exact ⟨position, by omega, withinWiden within first.grows (Nat.le_refl _)⟩

theorem walkGrows {place : Place} {piece : Piece} (walk : Walk u place s piece s' events) :
    s.nextConstruct ≤ s'.nextConstruct := by
  have numbered := walkNumbered walk
  cases piece with
  | handlers construct index list => exact numbered.grows
  | stmt code => exact numbered.grows
  | block body => exact numbered.grows
  | optional body => exact numbered.grows
  | arms chain otherwise => exact numbered.grows

end Statements

end Collect
end EffectAudit
