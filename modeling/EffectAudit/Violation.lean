import EffectAudit.Site
/-! Declared effects that a unit does not keep to. -/
namespace EffectAudit

inductive Violation where
  | explicitEmpty (routine : RoutineId) (category : Category) (kinds : List Kind) (span : Span)
  | undeclaredEffect (routine : RoutineId) (category : Category) (kinds : List Kind) (span : Span)
  | incompatibleBinding (routine : RoutineId) (target : BindingTarget) (value : BoundValue)
      (category : Category) (kinds : List Kind) (span : Span)
  | forbiddenTag (routine : RoutineId) (kinds : List Kind) (span : Span)
  deriving DecidableEq, Repr

namespace Violation

def routine : Violation → RoutineId
  | explicitEmpty routine .. => routine
  | undeclaredEffect routine .. => routine
  | incompatibleBinding routine .. => routine
  | forbiddenTag routine .. => routine

def category : Violation → Category
  | explicitEmpty _ category .. => category
  | undeclaredEffect _ category .. => category
  | incompatibleBinding _ _ _ category .. => category
  | forbiddenTag .. => .tags

def kinds : Violation → List Kind
  | explicitEmpty _ _ kinds _ => kinds
  | undeclaredEffect _ _ kinds _ => kinds
  | incompatibleBinding _ _ _ _ kinds _ => kinds
  | forbiddenTag _ kinds _ => kinds

def span : Violation → Span
  | explicitEmpty _ _ _ span => span
  | undeclaredEffect _ _ _ span => span
  | incompatibleBinding _ _ _ _ _ span => span
  | forbiddenTag _ _ span => span

def code : Violation → String
  | explicitEmpty .. => "explicit_empty"
  | undeclaredEffect .. => "undeclared_effect"
  | incompatibleBinding .. => "incompatible_binding"
  | forbiddenTag .. => "forbidden_tag"

def message : Violation → String
  | explicitEmpty routine category kinds _ =>
    let verb := category.verb
    s!"'{routine}' is declared to {verb} no {category.noun} but can {verb}: {Kind.listing kinds}"
  | undeclaredEffect routine category kinds _ =>
    s!"'{routine}' can {category.verb} {category.noun} kinds missing from its declared list: " ++
      Kind.listing kinds
  | incompatibleBinding routine target value category kinds _ =>
    s!"cannot bind {value.text} to {target.text} in '{routine}': {category.noun} kinds " ++
      s!"not allowed by the declared type: {Kind.listing kinds}"
  | forbiddenTag routine kinds _ =>
    s!"'{routine}' produces forbidden tags: {Kind.listing kinds}"

end Violation
end EffectAudit
