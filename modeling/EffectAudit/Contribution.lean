import EffectAudit.Site
import EffectAudit.Table
/-! What each site adds to its routine's sets. The same sum serves the whole routine and the part of
it that comes before a marker. -/
namespace EffectAudit

inductive SiteFilter where
  | all
  | upTo (marker : Site.Marker)

namespace SiteFilter

def admits : SiteFilter → Nat → Site.Context → Bool
  | all, _, _ => true
  | upTo marker, ordinal, context =>
    ordinal < marker.ordinal && !context.isExclusiveWith marker.context

/-- While the marker is still inside a protected body, its handlers have caught nothing. -/
def applies : SiteFilter → Guard → Bool
  | all, _ => true
  | upTo marker, guard => !marker.context.inTryBodyOf guard.construct

end SiteFilter

namespace Contribution

variable (h : Hierarchies) (table : EffectTable)

def declaredSet (category : Category) (kinds : List Kind) : EffectSet :=
  .ofKinds (h.get category) kinds

/-- A call or mention, before handlers. A parameter adds nothing: whoever passes the argument mentions
it. -/
def ofTarget (category : Category) : EdgeTarget → EffectSet
  | .param _ => ∅
  | .routine id => table.referenceSet id category
  | .binding _ bound origin =>
    match bound.effects.declared category with
    | some kinds => declaredSet h category kinds
    | none =>
      match origin with
      | some id => table.referenceSet id category
      | none => .unknown
  | .computed => .unknown

def ofEdge (category : Category) (site : Site.Edge) : EffectSet :=
  if site.kind = .indirectParam then ∅ else ofTarget h table category site.target

def ofRaise (site : Site.Raise) : EffectSet :=
  match site.raised with
  | .kind kind => .singleton h.raises kind
  | .again coverage => coverage.toEffectSet h.raises

def escaping (filter : SiteFilter) (category : Category) (context : Site.Context)
    (set : EffectSet) : EffectSet :=
  match category with
  | .tags => set
  | .raises =>
    (context.guards.filter filter.applies).foldl (fun set g => set.without h.raises g.coverage) set

def ofEdges (sites : RoutineSites) (category : Category) (filter : SiteFilter) : List EffectSet :=
  (sites.edges.filter fun site => filter.admits site.ordinal site.context).map fun site =>
    escaping h filter category site.context (ofEdge h table category site)

def ofRaises (sites : RoutineSites) (category : Category) (filter : SiteFilter) : List EffectSet :=
  match category with
  | .tags => []
  | .raises =>
    (sites.raises.filter fun site => filter.admits site.ordinal site.context).map fun site =>
      escaping h filter .raises site.context (ofRaise h site)

def accumulate (sites : RoutineSites) (category : Category) (filter : SiteFilter) : EffectSet :=
  (ofEdges h table sites category filter ++ ofRaises h sites category filter).foldl .union ∅

end Contribution
end EffectAudit
