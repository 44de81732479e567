import EffectAudit.Table
/-! Finished effects of a unit, as other units see them. -/
namespace EffectAudit

structure PublishedEntry where
  raises : EffectSet
  tags : EffectSet
  deriving DecidableEq, Repr

def PublishedEntry.get (e : PublishedEntry) : Category → EffectSet
  | .raises => e.raises
  | .tags => e.tags

structure PublishedEffects where
  version : UInt32
  unit : String
  routines : NameMap PublishedEntry := ∅
  deriving DecidableEq, Repr

namespace PublishedEffects

def currentVersion : UInt32 := 1

def new (unit : String) : PublishedEffects := { version := currentVersion, unit }

def insert (p : PublishedEffects) (id : RoutineId) (entry : PublishedEntry) : PublishedEffects :=
  { p with routines := p.routines.insert id entry }

def ofTable (unit : String) (table : EffectTable) : PublishedEffects :=
  table.toList.foldl
    (fun p effects => p.insert effects.routine ⟨effects.raises.resolved, effects.tags.resolved⟩)
    (new unit)

def sourceName (p : PublishedEffects) : String := p.unit

def get? (p : PublishedEffects) (id : RoutineId) : Option PublishedEntry := p.routines.get? id

def size (p : PublishedEffects) : Nat := p.routines.size

def isEmpty (p : PublishedEffects) : Bool := p.routines.isEmpty

end PublishedEffects

structure Registry where
  tables : List PublishedEffects := []
  deriving DecidableEq, Repr

namespace Registry

def empty : Registry := {}

def sourceName : String := "registry"

def push (r : Registry) (table : PublishedEffects) : Registry := ⟨r.tables ++ [table]⟩

def size (r : Registry) : Nat := r.tables.length

def isEmpty (r : Registry) : Bool := r.tables.isEmpty

def lookup? (r : Registry) (id : RoutineId) (category : Category) : Option EffectSet :=
  (r.tables.findSome? (·.get? id)).map (·.get category)

end Registry
end EffectAudit
