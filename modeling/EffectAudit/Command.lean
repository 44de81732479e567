/-! The command line: what may be asked for and how it is spelled. -/
namespace EffectAudit

structure CheckOptions where
  programs : List String
  config : Option String
  preset : Option String
  published : List String
  json : Bool
  deriving DecidableEq, Repr

structure PublishOptions where
  program : String
  output : String
  config : Option String
  published : List String
  deriving DecidableEq, Repr

inductive Command where
  | check (options : CheckOptions)
  | publish (options : PublishOptions)
  deriving DecidableEq, Repr

inductive CommandLineError where
  | usage
  | help
  deriving DecidableEq, Repr

namespace CommandLine

abbrev Parsed := Except CommandLineError

inductive OptionKey where
  | config
  | preset
  | published
  | output
  | json
  | help
  deriving DecidableEq, Repr

namespace OptionKey

def takesValue : OptionKey → Bool
  | json | help => false
  | _ => true

def isRepeatable : OptionKey → Bool
  | published => true
  | _ => false

def admits (key : OptionKey) (value : String) : Bool :=
  value != "" || key == preset || !key.takesValue

def ofLong? : String → Option OptionKey
  | "config" => some config
  | "preset" => some preset
  | "published" => some published
  | "output" => some output
  | "json" => some json
  | "help" => some help
  | _ => none

def ofShort? : Char → Option OptionKey
  | 'c' => some config
  | 'p' => some preset
  | 'o' => some output
  | 'h' => some help
  | _ => none

end OptionKey

structure Arguments where
  options : List (OptionKey × String) := []
  operands : List String := []

namespace Arguments

def addOption (a : Arguments) (key : OptionKey) (value : String) : Parsed Arguments :=
  if key == .help then .error .help
  else if !key.admits value || (!key.isRepeatable && a.options.any (·.1 == key)) then .error .usage
  else .ok { a with options := a.options ++ [(key, value)] }

def addOperand (limit : Option Nat) (a : Arguments) (operand : String) : Parsed Arguments :=
  if operand == "" || limit == some a.operands.length then .error .usage
  else .ok { a with operands := a.operands ++ [operand] }

def values (a : Arguments) (key : OptionKey) : List String :=
  (a.options.filter (·.1 == key)).map (·.2)

def value? (a : Arguments) (key : OptionKey) : Option String := (a.values key).head?

end Arguments

structure Grammar where
  keys : List OptionKey
  operandLimit : Option Nat := none

structure Spelled where
  key : OptionKey
  value : Option String

def splitValue (cs : List Char) : String × Option String :=
  match cs.dropWhile (· != '=') with
  | [] => (String.ofList cs, none)
  | _ :: value => (String.ofList (cs.takeWhile (· != '=')), some (String.ofList value))

/-- The option that an argument spells; `none` for an operand. A long name may have its value after an
equals sign, a short one also right after it. A short one that takes no value counts at once, and
whatever else is in its argument does not matter. -/
def spelled? (keys : List OptionKey) (argument : String) : Parsed (Option Spelled) :=
  let known (key : Option OptionKey) (value : Option String) : Parsed (Option Spelled) :=
    match key with
    | some key =>
      if keys.contains key && (key.takesValue || value.isNone) then .ok (some ⟨key, value⟩)
      else .error .usage
    | none => .error .usage
  match argument.toList with
  | '-' :: '-' :: cs =>
    let (name, value) := splitValue cs
    known (OptionKey.ofLong? name) value
  | '-' :: c :: cs =>
    let value := match cs with
      | [] => none
      | '=' :: value => some (String.ofList value)
      | value => some (String.ofList value)
    let key := OptionKey.ofShort? c
    known key (if key.any OptionKey.takesValue then value else none)
  | _ => .ok none

def isValue (argument : String) : Bool := argument == "-" || !argument.startsWith "-"

def arguments (g : Grammar) (a : Arguments) : List String → Parsed Arguments
  | [] => .ok a
  | "--" :: operands => operands.foldlM (Arguments.addOperand g.operandLimit) a
  | argument :: rest =>
    match spelled? g.keys argument with
    | .error e => .error e
    | .ok none => (Arguments.addOperand g.operandLimit a argument).bind fun a => arguments g a rest
    | .ok (some ⟨key, some value⟩) => (a.addOption key value).bind fun a => arguments g a rest
    | .ok (some ⟨key, none⟩) =>
      if key.takesValue then
        match rest with
        | value :: rest =>
          if isValue value then (a.addOption key value).bind fun a => arguments g a rest
          else .error .usage
        | [] => .error .usage
      else (a.addOption key "").bind fun a => arguments g a rest

def check (args : List String) : Parsed Command := do
  let a ← arguments { keys := [.config, .preset, .published, .json, .help] } {} args
  let config := a.value? .config
  let preset := a.value? .preset
  if a.operands.isEmpty || (config.isSome && preset.isSome) then throw .usage
  return .check { programs := a.operands, config, preset, published := a.values .published
                  json := (a.value? .json).isSome }

def publish (args : List String) : Parsed Command := do
  let a ← arguments { keys := [.config, .published, .output, .help], operandLimit := some 1 } {} args
  match a.operands, a.value? .output with
  | [program], some output =>
    return .publish { program, output, config := a.value? .config, published := a.values .published }
  | _, _ => throw .usage

end CommandLine

def Command.ofArgs : List String → CommandLine.Parsed Command
  | "check" :: rest => CommandLine.check rest
  | "publish" :: rest => CommandLine.publish rest
  | ["help"] | ["help", "check"] | ["help", "publish"] | ["help", "help"] => .error .help
  | first :: _ => .error (if first == "--help" || first.startsWith "-h" then .help else .usage)
  | [] => .error .usage

end EffectAudit
