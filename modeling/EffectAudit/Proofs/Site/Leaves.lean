import EffectAudit.Proofs.Site.Numbering
/-! The code of a body in the order of the walk, cut into leaves. A leaf is a condition or a statement that
holds no other; its path leads to it through the constructs around it. Constructs are numbered as they are
met, and `if` chains lean to the right. No name is looked up for this. The walk of the body is the walk of one
leaf after the other, each in the context that its path gives. -/
namespace EffectAudit

/- What of a construct is entered. A protected body is entered past the handlers of its `try`. -/
inductive Entry where
  | branch (index : Nat)
  | loopBody
  | tryBody (handlers : List Handler)
  | handler (index : Nat)
  | cleanup

namespace Entry

def arm : Entry → Arm
  | branch index => .branch index
  | loopBody => .loopBody
  | tryBody _ => .tryBody
  | handler index => .handler index
  | cleanup => .cleanup

def handlers : Entry → List Handler
  | tryBody handlers => handlers
  | _ => []

end Entry

structure Step where
  construct : Nat
  entry : Entry

namespace Step

def arm (step : Step) : ArmRef := ⟨step.construct, step.entry.arm⟩

def guards (h : Hierarchy) (step : Step) : List Guard :=
  step.entry.handlers.map fun handler => ⟨step.construct, .ofHandler h handler.kinds⟩

end Step

def Site.Context.along (c : Site.Context) (h : Hierarchy) (path : List Step) : Site.Context :=
  ⟨c.arms ++ path.map Step.arm, c.guards ++ path.flatMap (Step.guards h)⟩

structure Leaf where
  path : List Step := []
  code : Stmt

namespace Leaf

def under (step : Step) (leaf : Leaf) : Leaf := { leaf with path := step :: leaf.path }

def context (h : Hierarchy) (leaf : Leaf) : Site.Context :=
  ⟨leaf.path.map Step.arm, leaf.path.flatMap (Step.guards h)⟩

def track (leaf : Leaf) : List Nat := leaf.path.map (·.construct)

end Leaf

mutual

def Stmt.leaves (next : Nat) : Stmt → Nat × List Leaf
  | .expr value => (next, [{ code := .expr value }])
  | .define name type value span => (next, [{ code := .define name type value span }])
  | .assign name value span => (next, [{ code := .assign name value span }])
  | .raise kind args span => (next, [{ code := .raise kind args span }])
  | .branch arms otherwise =>
    BranchArm.allLeaves (fun next => Stmt.elseLeaves next otherwise) next arms
  | .loop cond body =>
    let inside := Stmt.allLeaves (next + 1) body
    (inside.1, { code := .expr cond } :: inside.2.map (·.under ⟨next, .loopBody⟩))
  | .protect body handlers cleanup =>
    let inside := Stmt.allLeaves (next + 1) body
    let handled := Handler.allLeaves next 0 inside.1 handlers
    let last := Stmt.elseLeaves handled.1 cleanup
    (last.1, inside.2.map (·.under ⟨next, .tryBody handlers⟩) ++ handled.2 ++
      last.2.map (·.under ⟨next, .cleanup⟩))
  | .block body => Stmt.allLeaves next body
  | .exit value => (next, [{ code := .exit value }])
  | .marker label span => (next, [{ code := .marker label span }])

def Stmt.allLeaves (next : Nat) : List Stmt → Nat × List Leaf
  | [] => (next, [])
  | stmt :: rest =>
    let first := stmt.leaves next
    let others := Stmt.allLeaves first.1 rest
    (others.1, first.2 ++ others.2)

def Stmt.elseLeaves (next : Nat) : Option (List Stmt) → Nat × List Leaf
  | none => (next, [])
  | some body => Stmt.allLeaves next body

def BranchArm.allLeaves (otherwise : Nat → Nat × List Leaf) (next : Nat) :
    List BranchArm → Nat × List Leaf
  | [] => otherwise next
  | .mk cond body :: rest =>
    let taken := Stmt.allLeaves (next + 1) body
    let skipped := BranchArm.allLeaves otherwise taken.1 rest
    (skipped.1, { code := .expr cond } :: (taken.2.map (·.under ⟨next, .branch 0⟩) ++
      skipped.2.map (·.under ⟨next, .branch 1⟩)))

def Handler.allLeaves (construct index next : Nat) : List Handler → Nat × List Leaf
  | [] => (next, [])
  | .mk _ body :: rest =>
    let first := Stmt.allLeaves next body
    let others := Handler.allLeaves construct (index + 1) first.1 rest
    (others.1, first.2.map (·.under ⟨construct, .handler index⟩) ++ others.2)

end

def Piece.leaves (next : Nat) : Piece → Nat × List Leaf
  | .stmt code => code.leaves next
  | .block body => Stmt.allLeaves next body
  | .optional body => Stmt.elseLeaves next body
  | .arms chain otherwise => BranchArm.allLeaves (fun next => Stmt.elseLeaves next otherwise) next chain
  | .handlers construct index list => Handler.allLeaves construct index next list

theorem plainLeaves {code : Stmt} (simple : code.isPlain = true) (next : Nat) :
    code.leaves next = (next, [{ code }]) := by
  cases code, simple using Stmt.plainCases <;> rfl

def Routine.leaves (r : Routine) : List Leaf := (Stmt.allLeaves 0 (r.body.getD [])).2

def Together (construct : Nat) (tracks : List (List Nat)) : Prop :=
  ∃ before inside after, tracks = before ++ inside ++ after ∧ (∀ track ∈ before, construct ∉ track) ∧
    (∀ track ∈ inside, construct ∈ track) ∧ ∀ track ∈ after, construct ∉ track

structure Nested (low high : Nat) (tracks : List (List Nat)) : Prop where
  ordered : low ≤ high
  range : ∀ track ∈ tracks, ∀ construct ∈ track, low ≤ construct ∧ construct < high
  rising : ∀ track ∈ tracks, track.Pairwise (· < ·)
  together : ∀ construct, Together construct tracks

section Nested

variable {low middle high : Nat} {first second tracks : List (List Nat)}

theorem nestedNil (low : Nat) : Nested low low [] :=
  ⟨Nat.le_refl _, by simp, by simp, fun _ => ⟨[], [], [], by simp⟩⟩

theorem nestedHere (low : Nat) : Nested low low [[]] :=
  ⟨Nat.le_refl _, by simp, by simp, fun _ => ⟨[[]], [], [], by simp⟩⟩

/- The second piece takes its numbers after the first, so no construct is in both. -/
theorem nestedAppend (one : Nested low middle first) (two : Nested middle high second) :
    Nested low high (first ++ second) := by
  have lower := one.ordered
  have upper := two.ordered
  refine ⟨Nat.le_trans lower upper, ?_, List.forall_mem_append.mpr ⟨one.rising, two.rising⟩, ?_⟩
  · refine List.forall_mem_append.mpr ⟨?_, ?_⟩
    · intro track member construct around
      have := one.range track member construct around
      omega
    · intro track member construct around
      have := two.range track member construct around
      omega
  · intro construct
    by_cases early : construct < middle
    · obtain ⟨before, inside, after, rfl, out, within, left⟩ := one.together construct
      refine ⟨before, inside, after ++ second, by simp, out, within,
        List.forall_mem_append.mpr ⟨left, ?_⟩⟩
      intro track member around
      have := two.range track member construct around
      omega
    · obtain ⟨before, inside, after, rfl, out, within, left⟩ := two.together construct
      refine ⟨first ++ before, inside, after, by simp, List.forall_mem_append.mpr ⟨?_, out⟩, within, left⟩
      intro track member around
      have := one.range track member construct around
      omega

theorem nestedEnter (inside : Nested (low + 1) high tracks) :
    Nested low high (tracks.map (low :: ·)) := by
  have ordered := inside.ordered
  refine ⟨by omega, ?_, ?_, ?_⟩
  · intro track member construct around
    obtain ⟨inner, listed, rfl⟩ := List.mem_map.mp member
    rcases List.mem_cons.mp around with rfl | deeper
    · omega
    · have := inside.range inner listed construct deeper
      omega
  · intro track member
    obtain ⟨inner, listed, rfl⟩ := List.mem_map.mp member
    refine List.pairwise_cons.mpr ⟨?_, inside.rising inner listed⟩
    intro construct deeper
    exact (inside.range inner listed construct deeper).1
  · intro construct
    by_cases own : construct = low
    · subst own
      exact ⟨[], tracks.map (construct :: ·), [], by simp⟩
    · obtain ⟨before, middle, after, rfl, out, within, left⟩ := inside.together construct
      refine ⟨before.map (low :: ·), middle.map (low :: ·), after.map (low :: ·), by simp, ?_⟩
      simpa [own] using ⟨out, within, left⟩

end Nested

theorem underTracks (step : Step) (leaves : List Leaf) :
    (leaves.map (·.under step)).map Leaf.track = (leaves.map Leaf.track).map (step.construct :: ·) := by
  rw [List.map_map, List.map_map]
  rfl

def PieceNested (next : Nat) : Piece → Prop
  | .handlers construct index list =>
    ∃ tracks, Nested next (Handler.allLeaves construct index next list).1 tracks ∧
      (Handler.allLeaves construct index next list).2.map Leaf.track = tracks.map (construct :: ·)
  | piece => Nested next (piece.leaves next).1 ((piece.leaves next).2.map Leaf.track)

theorem pieceNested (next : Nat) (piece : Piece) : PieceNested next piece := by
  induction piece using Piece.induct generalizing next with
  | plain code simple =>
    change Nested _ _ _
    rw [Piece.leaves, plainLeaves simple]
    exact nestedHere next
  | branch arms otherwise ih =>
    change Nested _ _ _
    rw [Piece.leaves, Stmt.leaves]
    exact ih next
  | loop cond body ih =>
    change Nested _ _ _
    rw [Piece.leaves, Stmt.leaves, List.map_cons, underTracks]
    exact nestedAppend (nestedHere next) (nestedEnter (ih (next + 1)))
  | protect body handlers cleanup attempt handler last =>
    have inside := attempt (next + 1)
    obtain ⟨tracks, handled, same⟩ := handler next (Stmt.allLeaves (next + 1) body).1
    have after := last (Handler.allLeaves next 0 (Stmt.allLeaves (next + 1) body).1 handlers).1
    change Nested _ _ _
    rw [Piece.leaves, Stmt.leaves, List.map_append, List.map_append, underTracks, underTracks,
      same, ← List.map_append, ← List.map_append]
    exact nestedEnter (nestedAppend (nestedAppend inside handled) after)
  | nested body ih =>
    change Nested _ _ _
    rw [Piece.leaves, Stmt.leaves]
    exact ih next
  | nil => exact nestedNil next
  | cons code rest first others =>
    change Nested _ _ _
    rw [Piece.leaves, Stmt.allLeaves, List.map_append]
    exact nestedAppend (first next) (others _)
  | absent => exact nestedNil next
  | present body ih => exact ih next
  | skipped otherwise ih => exact ih next
  | arm cond body rest otherwise first others =>
    change Nested _ _ _
    rw [Piece.leaves, BranchArm.allLeaves, List.map_cons, List.map_append, underTracks,
      underTracks, ← List.map_append]
    exact nestedAppend (nestedHere next) (nestedEnter (nestedAppend (first (next + 1)) (others _)))
  | unhandled construct index => exact ⟨[], nestedNil next, rfl⟩
  | handler construct index kinds body rest first others =>
    obtain ⟨tracks, later, same⟩ := others (Stmt.allLeaves next body).1
    refine ⟨_, nestedAppend (first next) later, ?_⟩
    rw [Handler.allLeaves, List.map_append, underTracks, same, List.map_append]
    rfl

theorem blockNested (next : Nat) (body : List Stmt) :
    Nested next (Stmt.allLeaves next body).1 ((Stmt.allLeaves next body).2.map Leaf.track) :=
  pieceNested next (.block body)

namespace Collect

section Along

variable (outer : Site.Context) (h : Hierarchy)

theorem alongNil : outer.along h [] = outer := by
  simp [Site.Context.along]

theorem alongCons (step : Step) (path : List Step) :
    (outer.along h [step]).along h path = outer.along h (step :: path) := by
  simp [Site.Context.along]

theorem alongPlain (step : Step) (plain : step.entry.handlers = []) :
    outer.along h [step] = outer.enter step.construct step.entry.arm := by
  simp [Site.Context.along, Site.Context.enter, Step.guards, Step.arm, plain]

theorem alongTry (construct : Nat) (handlers : List Handler) :
    outer.along h [⟨construct, .tryBody handlers⟩] = (outer.enter construct .tryBody).guarded construct
      (handlers.map fun handler => .ofHandler h handler.kinds) := by
  simp [Site.Context.along, Site.Context.enter, Site.Context.guarded, Step.guards, Step.arm, Entry.arm,
    Entry.handlers]

end Along

structure Gives (u : Setting) (outer : Site.Context) (leaf : Leaf) (events : List Site.Event) : Prop where
  walked : ∃ caught s s', stmtEvents u ⟨outer.along u.hierarchies.raises leaf.path, caught⟩ s leaf.code =
    .ok (s', events)
  there : ∀ event ∈ events, ∀ c, event.context? = some c → c = outer.along u.hierarchies.raises leaf.path

structure Gathered (u : Setting) (outer : Site.Context) (leaves : Nat × List Leaf) (s : Scope)
    (events : List Site.Event) : Prop where
  number : s.nextConstruct = leaves.1
  parts : ∃ parts, List.Forall₂ (Gives u outer) leaves.2 parts ∧ events = parts.flatten

section Gathered

variable {u : Setting} {outer : Site.Context} {place : Place} {s s' : Scope} {leaves : Nat × List Leaf}
  {events : List Site.Event}

theorem gatheredNone (s : Scope) : Gathered u outer (s.nextConstruct, []) s [] :=
  ⟨rfl, [], .nil, rfl⟩

theorem gatheredLeaf {code : Stmt} (simple : code.isPlain = true)
    (walk : Walk u place s (.stmt code) s' events) :
    Gathered u place.context (s.nextConstruct, [{ code }]) s' events := by
  obtain ⟨_, own, noted, rfl, rfl⟩ := (plainOk simple).mp (walkOk walk)
  refine ⟨settledNumber s code, [_], .cons ⟨⟨place.caught, s, settled s code, ?_⟩, ?_⟩ .nil,
    (List.flatten_singleton ..).symm⟩
  · rw [alongNil]
    exact walkOk walk
  · rw [alongNil]
    intro event member c found
    rcases List.mem_append.mp member with inside | inside
    · exact (notesAt noted event inside).1 c found
    · exact closingContext inside found

theorem gatheredCondition {cond : Expr} (tested : NotesAll u s place.context cond.uses events) :
    Gathered u place.context (s.nextConstruct, [{ code := .expr cond }]) s events := by
  have alone : Walk u place s (.stmt (.expr cond)) s (events ++ []) := .plain rfl trivial tested
  rw [List.append_nil] at alone
  exact gatheredLeaf rfl alone

theorem gatheredAppend {first second : Nat × List Leaf} {own others : List Site.Event}
    (one : Gathered u outer first s own) (two : Gathered u outer second s' others) :
    Gathered u outer (second.1, first.2 ++ second.2) s' (own ++ others) := by
  obtain ⟨parts, gives, same⟩ := one.parts
  obtain ⟨parts', gives', same'⟩ := two.parts
  exact ⟨two.number, parts ++ parts', List.rel_append gives gives', by simp [same, same']⟩

theorem gatheredUnder (step : Step)
    (inside : Gathered u (outer.along u.hierarchies.raises [step]) leaves s events) :
    Gathered u outer (leaves.1, leaves.2.map (·.under step)) s events := by
  obtain ⟨parts, gives, same⟩ := inside.parts
  refine ⟨inside.number, parts, List.forall₂_map_left_iff.mpr (gives.imp ?_), same⟩
  intro leaf events given
  have walked := given.walked
  have there := given.there
  rw [alongCons] at walked there
  exact ⟨walked, there⟩

theorem gatheredEnter (step : Step) (plain : step.entry.handlers = [])
    (inside : Gathered u (outer.enter step.construct step.entry.arm) leaves s events) :
    Gathered u outer (leaves.1, leaves.2.map (·.under step)) s events := by
  rw [← alongPlain outer u.hierarchies.raises step plain] at inside
  exact gatheredUnder step inside

theorem gatheredTry {construct : Nat} {handlers : List Handler}
    (inside : Gathered u (place.shielded u construct handlers).context leaves s events) :
    Gathered u place.context (leaves.1, leaves.2.map (·.under ⟨construct, .tryBody handlers⟩)) s events := by
  refine gatheredUnder _ ?_
  rw [alongTry]
  exact inside

theorem walkGathered {piece : Piece} (walk : Walk u place s piece s' events) :
    Gathered u place.context (piece.leaves s.nextConstruct) s' events := by
  induction walk with
  | plain simple admitted noted =>
    rw [Piece.leaves, plainLeaves simple]
    exact gatheredLeaf simple (.plain simple admitted noted)
  | branch chain ih =>
    rw [Piece.leaves, Stmt.leaves]
    exact ih
  | @loop place s s' cond body test round tested inside ih =>
    rw [Piece.leaves, Stmt.leaves]
    exact gatheredAppend (gatheredCondition tested) (gatheredEnter ⟨s.nextConstruct, .loopBody⟩ rfl ih)
  | @protect place s s₁ s₂ s₃ body handlers cleanup first second third admitted tried handled cleaned
      attempt handler last =>
    have bodyNumber : s₁.nextConstruct = (Stmt.allLeaves (s.nextConstruct + 1) body).1 := attempt.number
    have handlersNumber : s₂.nextConstruct =
        (Handler.allLeaves s.nextConstruct 0 s₁.nextConstruct handlers).1 := handler.number
    rw [Piece.leaves, Stmt.leaves, ← bodyNumber, ← handlersNumber]
    exact gatheredAppend (gatheredAppend (gatheredTry attempt) handler)
      (gatheredEnter ⟨s.nextConstruct, .cleanup⟩ rfl last)
  | nested inside ih =>
    rw [Piece.leaves, Stmt.leaves]
    exact ih
  | nil => exact gatheredNone _
  | @cons place s s₁ s₂ code rest own others one more first later =>
    have number : s₁.nextConstruct = (code.leaves s.nextConstruct).1 := first.number
    rw [Piece.leaves, Stmt.allLeaves, ← number]
    exact gatheredAppend first later
  | absent => exact gatheredNone _
  | present inside ih => exact ih
  | skipped last ih => exact ih
  | @arm place s s₁ s₂ cond body rest otherwise test own others tested taken more first later =>
    have number : s₁.nextConstruct = (Stmt.allLeaves (s.nextConstruct + 1) body).1 := first.number
    rw [Piece.leaves, BranchArm.allLeaves, ← number, List.append_assoc]
    exact gatheredAppend (gatheredCondition tested)
      (gatheredAppend (gatheredEnter ⟨s.nextConstruct, .branch 0⟩ rfl first)
        (gatheredEnter ⟨s.nextConstruct, .branch 1⟩ rfl later))
  | unhandled => exact gatheredNone _
  | @handler place s s₁ s₂ construct index kinds body rest own others one more first later =>
    have number : s₁.nextConstruct = (Stmt.allLeaves s.nextConstruct body).1 := first.number
    rw [Piece.leaves, Handler.allLeaves, ← number]
    exact gatheredAppend (gatheredEnter ⟨construct, .handler index⟩ rfl first) later

end Gathered

end Collect
end EffectAudit
