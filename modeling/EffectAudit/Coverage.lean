import EffectAudit.EffectSet
/-! What a handler catches, and what is left of a set once it has caught. -/
namespace EffectAudit

inductive Coverage where
  | all
  | kinds (list : List Kind)
  deriving DecidableEq, Repr

namespace Coverage

def ofHandler (h : Hierarchy) (kinds : List Kind) : Coverage :=
  if kinds.isEmpty || kinds.any h.isRoot then all else Coverage.kinds kinds

def covers (h : Hierarchy) : Coverage → Kind → Bool
  | all, _ => true
  | kinds list, kind => list.any fun cover => h.isCoveredBy kind cover

def toEffectSet (h : Hierarchy) : Coverage → EffectSet
  | all => .unknown
  | kinds list => .ofKinds h list

end Coverage

/-- Drops what a handler catches. `unknown` only disappears under a handler that catches everything,
because no set stands for everything but some kinds. -/
def EffectSet.without (h : Hierarchy) (s : EffectSet) (coverage : Coverage) : EffectSet :=
  match s, coverage with
  | _, .all => ∅
  | .unknown, .kinds _ => .unknown
  | .known kinds, .kinds list => .known (kinds.filter fun kind => !(Coverage.kinds list).covers h kind)

end EffectAudit
