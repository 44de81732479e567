import EffectAudit.Coverage
import EffectAudit.Program
/-! What inference needs of a routine body, flattened into ordered sites. A site remembers the arms
and handlers around it, so the whole routine and the part before a marker are read off the same
lists. -/
namespace EffectAudit

inductive Arm where
  | branch (index : Nat)
  | loopBody
  | tryBody
  | handler (index : Nat)
  | cleanup
  deriving DecidableEq, Repr

/-- Arms of one construct that no path runs both of. A handler runs after part of the protected body,
so those two do not exclude each other. -/
def Arm.excludes : Arm → Arm → Bool
  | .branch a, .branch b => a != b
  | .handler a, .handler b => a != b
  | _, _ => false

structure ArmRef where
  construct : Nat
  arm : Arm
  deriving DecidableEq, Repr

structure Guard where
  construct : Nat
  coverage : Coverage
  deriving DecidableEq, Repr

namespace Site

structure Context where
  arms : List ArmRef := []
  guards : List Guard := []
  deriving DecidableEq, Repr

namespace Context

def enter (c : Context) (construct : Nat) (arm : Arm) : Context :=
  { c with arms := c.arms ++ [⟨construct, arm⟩] }

def guarded (c : Context) (construct : Nat) (coverages : List Coverage) : Context :=
  { c with guards := c.guards ++ coverages.map (Guard.mk construct) }

def isExclusiveWith (a b : Context) : Bool :=
  a.arms.any fun mine => b.arms.any fun theirs =>
    mine.construct == theirs.construct && mine.arm.excludes theirs.arm

def inTryBodyOf (c : Context) (construct : Nat) : Bool :=
  c.arms.any fun ref => ref.construct == construct && ref.arm == .tryBody

end Context
end Site

inductive EdgeKind where
  | direct
  | method
  | indirectParam
  | indirectLocal
  | mention
  deriving DecidableEq, Repr

inductive EdgeTarget where
  | routine (id : RoutineId)
  | param (name : String)
  | binding (name : String) (bound : ProcType) (origin : Option RoutineId)
  | computed
  deriving DecidableEq, Repr

def EdgeTarget.routine? : EdgeTarget → Option RoutineId
  | .routine id => some id
  | .binding _ _ origin => origin
  | _ => none

inductive Raised where
  | kind (kind : Kind)
  | again (coverage : Coverage)
  deriving DecidableEq, Repr

inductive BindingTarget where
  | local (name : String)
  | global (name : String)
  | param (callee : RoutineId) (name : String)
  deriving DecidableEq, Repr

def BindingTarget.text : BindingTarget → String
  | .local name => s!"local '{name}'"
  | .global name => s!"global '{name}'"
  | .param callee name => s!"parameter '{name}' of '{callee}'"

inductive BoundValue where
  | routine (id : RoutineId)
  | proc (name : String) (type : ProcType)
  deriving DecidableEq, Repr

def BoundValue.text : BoundValue → String
  | .routine id => s!"'{id}'"
  | .proc name _ => s!"'{name}'"

namespace Site

structure Edge where
  ordinal : Nat
  kind : EdgeKind
  target : EdgeTarget
  context : Context
  span : Span
  deriving DecidableEq, Repr

structure Raise where
  ordinal : Nat
  raised : Raised
  context : Context
  span : Span
  deriving DecidableEq, Repr

structure Marker where
  ordinal : Nat
  index : Nat
  label : Option String
  context : Context
  span : Span
  deriving DecidableEq, Repr

structure Binding where
  ordinal : Nat
  target : BindingTarget
  expected : ProcType
  value : BoundValue
  span : Span
  deriving DecidableEq, Repr

inductive Event where
  | edge (kind : EdgeKind) (target : EdgeTarget) (context : Context) (span : Span)
  | raise (raised : Raised) (context : Context) (span : Span)
  | marker (label : Option String) (context : Context) (span : Span)
  | binding (target : BindingTarget) (expected : ProcType) (value : BoundValue) (span : Span)
  deriving DecidableEq, Repr

namespace Event

def edge? (ordinal : Nat) : Event → Option Edge
  | edge kind target context span => some ⟨ordinal, kind, target, context, span⟩
  | _ => none

def raise? (ordinal : Nat) : Event → Option Raise
  | raise raised context span => some ⟨ordinal, raised, context, span⟩
  | _ => none

def marker? (ordinal : Nat) : Event → Option Marker
  | marker label context span => some ⟨ordinal, 0, label, context, span⟩
  | _ => none

def binding? (ordinal : Nat) : Event → Option Binding
  | binding target expected value span => some ⟨ordinal, target, expected, value, span⟩
  | _ => none

end Event
end Site

structure RoutineSites where
  routine : RoutineId
  edges : List Site.Edge := []
  raises : List Site.Raise := []
  markers : List Site.Marker := []
  bindings : List Site.Binding := []
  deriving DecidableEq, Repr

namespace RoutineSites

/-- Numbers the events of a routine. All four lists draw their ordinals from one count, and markers
are counted once more among themselves. -/
def ofEvents (routine : RoutineId) (events : List Site.Event) : RoutineSites :=
  let numbered := events.zipIdx
  { routine
    edges := numbered.filterMap fun (event, ordinal) => event.edge? ordinal
    raises := numbered.filterMap fun (event, ordinal) => event.raise? ordinal
    markers := (numbered.filterMap fun (event, ordinal) => event.marker? ordinal).mapIdx
      fun index marker => { marker with index }
    bindings := numbered.filterMap fun (event, ordinal) => event.binding? ordinal }

def marker? (sites : RoutineSites) (index : Nat) : Option Site.Marker := sites.markers[index]?

def markerLabeled? (sites : RoutineSites) (label : String) : Option Site.Marker :=
  sites.markers.find? (·.label == some label)

end RoutineSites
end EffectAudit
