import EffectAudit.Json.Reader
import EffectAudit.Program.Decode
import EffectAudit.Text.Blank
import EffectAudit.Yaml.Format
/-! Programs read from a text. The name of a file says which format it has. -/
namespace EffectAudit

inductive DocumentFormat where
  | json
  | yaml
  deriving DecidableEq, Repr

namespace DocumentFormat

def name : DocumentFormat → String
  | json => "json"
  | yaml => "yaml"

def fileName? (path : String) : Option String :=
  ((path.splitOn "/").filter fun part => part != "" && part != ".").getLast?

def extension? (path : String) : Option String := do
  let name ← fileName? path
  if name == ".." then none
  match (name.splitOn ".").reverse with
  | extension :: stem =>
    if stem.isEmpty || stem == [""] then none else return extension
  | [] => none

def ofPath (path : String) : DocumentFormat :=
  match extension? path with
  | some "yaml" | some "yml" => yaml
  | _ => json

def malformed : DocumentFormat → Error
  | json => .malformedJson
  | yaml => .malformedYaml

end DocumentFormat

namespace Program

def checkUnit (p : Program) : Except Error Program :=
  if Text.isBlank p.unit then .error .emptyUnitName else .ok p

def ofText? (text : String) : DocumentFormat → Option Program
  | .json => (Json.parse? text).bind (Decode.program? Json.format)
  | .yaml => (Yaml.Node.parse? text).bind (Decode.program? Yaml.format)

def read (text : String) (format : DocumentFormat) : Except Error Program :=
  match ofText? text format with
  | none => .error format.malformed
  | some p => p.checkUnit

def ofJson (json : Json) : Except Error Program :=
  match Decode.program? Json.format json with
  | none => .error .malformedJson
  | some p => p.checkUnit

end Program
end EffectAudit
