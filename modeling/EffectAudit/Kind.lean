/-! Kinds are nominal: two kinds are the same exactly when their names are. A category says
whether a kind is an exception or a tag; the two never mix. -/
namespace EffectAudit

abbrev Kind := String

def Kind.listing (kinds : List Kind) : String :=
  ", ".intercalate kinds

inductive Category where
  | raises
  | tags
  deriving DecidableEq, Repr

namespace Category

def all : List Category := [raises, tags]

theorem memAll (c : Category) : c ∈ all := by cases c <;> decide

def name : Category → String
  | raises => "raises"
  | tags => "tags"

def noun : Category → String
  | raises => "exception"
  | tags => "tag"

def verb : Category → String
  | raises => "raise"
  | tags => "produce"

end Category
end EffectAudit
