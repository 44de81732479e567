/-! What can be wrong with a configuration, and how it is said. -/
namespace EffectAudit

inductive ConfigError where
  | passesOutOfRange (value limit : Nat)
  | missingVersion
  | unsupportedVersion (found : Nat)
  | unknownPreset (name : String)
  | unreadableFile
  | malformedText
  deriving DecidableEq, Repr

namespace ConfigError

def message : ConfigError → String
  | passesOutOfRange value limit =>
    s!"Invalid range for field 'max_passes': {value} not in 0..={limit}. " ++
      "Use 0 for the automatic bound (routines x lattice height + 1)"
  | missingVersion =>
    "Missing 'version' field in configuration file. " ++
      "Add 'version: 1' to the top of your YAML file."
  | unsupportedVersion found =>
    s!"Unsupported configuration version {found}. Supported versions: 1"
  | unknownPreset name =>
    s!"Unknown preset '{name}'. Valid presets: permissive, standard, strict"
  | unreadableFile => "IO error: the configuration file cannot be read"
  | malformedText => "YAML parsing error: not a version 1 configuration"

end ConfigError
end EffectAudit
