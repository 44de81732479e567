import EffectAudit.Hierarchy
/-! What a routine may produce in one category: a finite set of kinds, each standing for itself and
its descendants, or `unknown`, which admits everything. The join is union and `unknown` is on top.
Sets built by `insert` hold neither the root, which widens to `unknown`, nor an untracked kind. -/
namespace EffectAudit

inductive EffectSet where
  | unknown
  | known (kinds : NameSet)
  deriving DecidableEq, Repr

namespace EffectSet

def empty : EffectSet := known ∅

instance : EmptyCollection EffectSet := ⟨empty⟩
instance : Inhabited EffectSet := ⟨empty⟩

def isEmpty : EffectSet → Bool
  | unknown => false
  | known kinds => kinds.isEmpty

def isUnknown : EffectSet → Bool
  | unknown => true
  | known _ => false

def kinds? : EffectSet → Option (List Kind)
  | unknown => none
  | known kinds => some kinds.toList

def insert (h : Hierarchy) (s : EffectSet) (kind : Kind) : EffectSet :=
  match s with
  | unknown => unknown
  | known kinds =>
    if h.isTracked kind then
      if h.isRoot kind then unknown else known (kinds.insert kind)
    else known kinds

def ofKinds (h : Hierarchy) (kinds : List Kind) : EffectSet :=
  kinds.foldl (insert h) empty

def singleton (h : Hierarchy) (kind : Kind) : EffectSet := ofKinds h [kind]

def normalized (h : Hierarchy) : EffectSet → EffectSet
  | unknown => unknown
  | known kinds => ofKinds h kinds.toList

def union : EffectSet → EffectSet → EffectSet
  | known a, known b => known (a.union b)
  | _, _ => unknown

def covers (h : Hierarchy) (kinds : NameSet) (kind : Kind) : Bool :=
  kinds.toList.any fun cover => h.isCoveredBy kind cover

def subsumes (h : Hierarchy) : EffectSet → EffectSet → Bool
  | unknown, _ => true
  | known _, unknown => false
  | known a, known b => b.toList.all (covers h a)

/-- Whether an instance of the kind may be produced: a member below it is one, and a member above it
may turn out to be the narrower kind. -/
def mayRaise (h : Hierarchy) (s : EffectSet) (kind : Kind) : Bool :=
  match s with
  | unknown => true
  | known kinds => kinds.toList.any fun k => h.isCoveredBy k kind || h.isCoveredBy kind k

def uncoveredBy (h : Hierarchy) : EffectSet → EffectSet → EffectSet
  | _, unknown => empty
  | unknown, known _ => unknown
  | known a, known b => known (a.filter fun kind => !covers h b kind)

def coveredByAny (h : Hierarchy) (s : EffectSet) (listed : List Kind) : EffectSet :=
  match s with
  | unknown => empty
  | known kinds => known (kinds.filter fun kind => listed.any fun cover => h.isCoveredBy kind cover)

def toKindList (h : Hierarchy) : EffectSet → List Kind
  | unknown => [h.root]
  | known kinds => kinds.toList

def braced (kinds : List Kind) : String := "\x7b" ++ Kind.listing kinds ++ "\x7d"

def describe (h : Hierarchy) (s : EffectSet) : String := braced (s.toKindList h)

def text : EffectSet → String
  | unknown => braced ["*"]
  | known kinds => braced kinds.toList

end EffectSet
end EffectAudit
