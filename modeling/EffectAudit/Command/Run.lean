import EffectAudit.Analysis
import EffectAudit.Command
import EffectAudit.Config.Yaml
import EffectAudit.Program.Read
import EffectAudit.Published.Codec
import EffectAudit.Report.Encode
import EffectAudit.Store
/-! What a command does. Everything is read and analysed before anything is shown, so a run either
fails with one error or answers in full. -/
namespace EffectAudit

structure Outcome where
  code : Nat
  stdout : String := ""
  stderr : String := ""
  deriving DecidableEq, Repr

namespace Outcome

def ofError (e : Error) : Outcome := { code := 1, stderr := s!"Error: {e.message}\n" }

end Outcome

namespace CommandLineError

def usageText : String :=
  "usage: check PROGRAM... [--config FILE | --preset NAME] [--published FILE]... [--json]\n" ++
    "       publish PROGRAM --output FILE [--config FILE] [--published FILE]...\n"

def outcome : CommandLineError → Outcome
  | usage => { code := 2, stderr := usageText }
  | help => { code := 0, stdout := usageText }

end CommandLineError

structure Job where
  config : Config
  registry : Registry
  programs : List Program

namespace Command

def programs : Command → List String
  | check options => options.programs
  | publish options => [options.program]

def published : Command → List String
  | check options => options.published
  | publish options => options.published

def configFile? : Command → Option String
  | check options => options.config
  | publish options => options.config

def preset? : Command → Option String
  | check options => options.preset
  | publish _ => none

def inputs (c : Command) : List String := c.configFile?.toList ++ c.published ++ c.programs

variable (read? : String → Option String)

def loadConfig (c : Command) : Except ConfigError Config :=
  match c.configFile?, c.preset? with
  | some path, _ =>
    match read? path with
    | none => .error .unreadableFile
    | some text => Config.read text
  | none, some name =>
    match Preset.ofName? name with
    | none => .error (.unknownPreset name)
    | some preset => .ok (.ofPreset preset)
  | none, none => .ok default

def loadText (path : String) : Except Error String :=
  match read? path with
  | none => .error .unreadableFile
  | some text => .ok text

def loadPublished (path : String) : Except Error PublishedEffects := do
  PublishedEffects.read (← loadText read? path)

def loadProgram (path : String) : Except Error Program := do
  Program.read (← loadText read? path) (.ofPath path)

def load (c : Command) : Except Error Job := do
  let config ← (c.loadConfig read?).mapError .config
  let tables ← c.published.mapM (loadPublished read?)
  let programs ← c.programs.mapM (loadProgram read?)
  return ⟨config, ⟨tables⟩, programs⟩

end Command

def Job.results (j : Job) : Except Error (List UnitResult) :=
  j.programs.mapM (analyze j.config j.registry)

namespace UnitResult

def checkJson (r : UnitResult) : Json :=
  .object [("unit", .string r.unit), ("has_errors", .bool r.hasErrors),
    ("passes", .nat r.metrics.passes), ("converged", .bool r.metrics.converged),
    ("diagnostics", .ofList Diagnostic.toJson r.diagnostics),
    ("violations", .ofList Violation.toJson r.violations)]

def diagnosticLines (r : UnitResult) : String :=
  String.join (r.diagnostics.map fun d => s!"{r.unit}: {d.text}\n")

def summaryLine (r : UnitResult) (elapsed : String) : String :=
  s!"{r.unit}: {r.violations.length} violation(s), {r.metrics.summary elapsed}\n"

end UnitResult

structure Delivery where
  path : String
  text : String
  outcome : Outcome

def CheckOptions.outcome (options : CheckOptions) (results : List (UnitResult × String)) : Outcome :=
  let code := if results.any fun (r, _) => r.hasErrors then 1 else 0
  if options.json then
    { code, stdout := (Json.ofList (fun (r, _) => r.checkJson) results).sortKeys.pretty ++ "\n" }
  else
    { code
      stdout := String.join (results.map fun (r, _) => r.diagnosticLines)
      stderr := String.join (results.map fun (r, elapsed) => r.summaryLine elapsed) }

def PublishOptions.delivery (options : PublishOptions) (result : UnitResult) : Delivery :=
  let published := result.published
  { path := options.output
    text := published.text
    outcome := {
      code := 0
      stderr := s!"{result.unit}: published {published.size} routine(s) to {options.output}\n" } }

namespace Command

def conclude (c : Command) (results : List (UnitResult × String)) : Except Outcome Delivery :=
  match c, results with
  | check options, results => .error (options.outcome results)
  | publish options, (result, _) :: _ => .ok (options.delivery result)
  | publish _, [] => .error (.ofError .unreadableFile)

def run (c : Command) (elapsed : String) (store : Store) : Outcome × Store :=
  match (c.load store.read?).bind Job.results with
  | .error e => (.ofError e, store)
  | .ok results =>
    match c.conclude (results.map (·, elapsed)) with
    | .error outcome => (outcome, store)
    | .ok delivery =>
      match store.write? delivery.path delivery.text with
      | none => (.ofError .unreadableFile, store)
      | some store => (delivery.outcome, store)

end Command

def runArgs (args : List String) (elapsed : String) (store : Store) : Outcome × Store :=
  match Command.ofArgs args with
  | .error e => (e.outcome, store)
  | .ok command => command.run elapsed store

end EffectAudit
