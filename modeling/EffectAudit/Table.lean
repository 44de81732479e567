import EffectAudit.EffectSet
/-! The effects of every routine of a unit. `inferred` is what a body produces; `resolved` is what
callers see, which is the declared list where there is one. -/
namespace EffectAudit

structure CategoryEffects where
  resolved : EffectSet
  inferred : EffectSet
  declared : Bool
  deriving DecidableEq, Repr

namespace CategoryEffects

def ofDeclared (set : EffectSet) : CategoryEffects := ⟨set, ∅, true⟩

def ofInferred (seed : EffectSet) : CategoryEffects := ⟨seed, seed, false⟩

def withInferred (e : CategoryEffects) (set : EffectSet) : CategoryEffects :=
  { e with inferred := set, resolved := if e.declared then e.resolved else set }

def absorb (e : CategoryEffects) (computed : EffectSet) : CategoryEffects :=
  let joined := e.inferred.union computed
  if joined = e.inferred then e else e.withInferred joined

def grows (e : CategoryEffects) (computed : EffectSet) : Bool :=
  e.inferred.union computed != e.inferred

def widen (e : CategoryEffects) : CategoryEffects := e.withInferred .unknown

end CategoryEffects

structure RoutineEffects where
  routine : RoutineId
  raises : CategoryEffects
  tags : CategoryEffects
  analyzed : Bool
  dispatched : Bool := false
  deriving DecidableEq, Repr

namespace RoutineEffects

def get (e : RoutineEffects) : Category → CategoryEffects
  | .raises => e.raises
  | .tags => e.tags

def update (e : RoutineEffects) (category : Category) (f : CategoryEffects → CategoryEffects) :
    RoutineEffects :=
  match category with
  | .raises => { e with raises := f e.raises }
  | .tags => { e with tags := f e.tags }

/-- What a reference to the routine stands for: an override is bound by a declaration only. -/
def referenceSet (e : RoutineEffects) (category : Category) : EffectSet :=
  if e.dispatched && !(e.get category).declared then .unknown else (e.get category).resolved

def widen (e : RoutineEffects) : RoutineEffects :=
  { e with raises := e.raises.widen, tags := e.tags.widen }

def isUnknown (e : RoutineEffects) : Bool :=
  e.raises.inferred.isUnknown && e.tags.inferred.isUnknown

end RoutineEffects

structure EffectTable where
  routines : NameMap RoutineEffects := ∅
  deriving DecidableEq, Repr

namespace EffectTable

def empty : EffectTable := {}

def get? (t : EffectTable) (id : RoutineId) : Option RoutineEffects := t.routines.get? id

def insert (t : EffectTable) (effects : RoutineEffects) : EffectTable :=
  ⟨t.routines.insert effects.routine effects⟩

def modify (t : EffectTable) (id : RoutineId) (f : RoutineEffects → RoutineEffects) : EffectTable :=
  ⟨t.routines.modify id f⟩

def toList (t : EffectTable) : List RoutineEffects := t.routines.values

def size (t : EffectTable) : Nat := t.routines.size

def isEmpty (t : EffectTable) : Bool := t.routines.isEmpty

def resolved (t : EffectTable) (id : RoutineId) (category : Category) : EffectSet :=
  match t.get? id with
  | none => .unknown
  | some effects => (effects.get category).resolved

def referenceSet (t : EffectTable) (id : RoutineId) (category : Category) : EffectSet :=
  match t.get? id with
  | none => .unknown
  | some effects => effects.referenceSet category

end EffectTable
end EffectAudit
