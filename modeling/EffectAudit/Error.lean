import EffectAudit.Kind
import EffectAudit.Config.Error
/-! Every way an analysis can fail. A violation of a declared effect is not among them: a unit with
violations still has a complete table. -/
namespace EffectAudit

abbrev RoutineId := String

inductive Error where
  | unreadableFile
  | malformedJson
  | malformedYaml
  | config (cause : ConfigError)
  | unknownRoutine (routine referencedFrom : RoutineId)
  | duplicateRoutine (routine : RoutineId)
  | unknownKind (kind : Kind) (category : Category) (context : String)
  | kindCycle (kind : Kind) (category : Category)
  | emptyUnitName
  | publishedVersion (unit : String) (found expected : Nat)
  deriving DecidableEq, Repr

namespace Error

def message : Error → String
  | unreadableFile => "IO error: the file cannot be read or written"
  | malformedJson => "JSON error: not a well-formed document of the expected shape"
  | malformedYaml => "YAML error: not a well-formed document of the expected shape"
  | config cause => s!"Configuration error: {cause.message}"
  | unknownRoutine routine referencedFrom =>
    s!"Unknown routine '{routine}' referenced from '{referencedFrom}'"
  | duplicateRoutine routine => s!"Duplicate routine '{routine}'"
  | unknownKind kind category context =>
    s!"Unknown {category.noun} kind '{kind}' in '{context}'"
  | kindCycle kind category => s!"Cyclic {category.noun} hierarchy through '{kind}'"
  | emptyUnitName => "Program error: unit name is empty"
  | publishedVersion unit found expected =>
    s!"Unsupported published effects version {found} for unit '{unit}' (expected {expected})"

end Error
end EffectAudit
