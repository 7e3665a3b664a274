import ScriptLint.Severity
import ScriptLint.Toml.Document

/-!
# Settings

Which rules run, how severe they are, which options they take, and how often fixes are applied.  The
settings are read from a document; what they leave out has a default, and keys that mean nothing are
passed over.

The section of a rule holds `enabled`, `severity` and any options.  A severity is written as its
name, or as a table whose only key is the name and has nothing in it.  The section of the linter may
also be written as an array with its fields in order.
-/

namespace ScriptLint

/-- Why a file cannot be read. -/
inductive ReadFault where
  | missing
  | isDirectory
  /-- A file stands where the path needs a directory. -/
  | notDirectory
  | nameTooLong
  /-- The path holds the null character. -/
  | nullInName
  | notText
deriving DecidableEq, Repr

def ReadFault.message : ReadFault → String
  | missing => "No such file or directory (os error 2)"
  | isDirectory => "Is a directory (os error 21)"
  | notDirectory => "Not a directory (os error 20)"
  | nameTooLong => "File name too long (os error 36)"
  | nullInName => "file name contained an unexpected NUL byte"
  | notText => "stream did not contain valid UTF-8"

/-- What can be wrong with settings. -/
inductive ConfigError where
  /-- The file cannot be read. -/
  | unreadable (path : String) (fault : ReadFault)
  /-- The document is malformed, or a value in it has the wrong form. -/
  | malformed
  /-- A value is not one of those that a key takes. -/
  | invalidValue (key message : String)
deriving DecidableEq, Repr

def ConfigError.message : ConfigError → String
  | unreadable path fault => "Failed to read config file " ++ path ++ ": " ++ fault.message
  | malformed => "Failed to parse config"
  | invalidValue key message => "Invalid value for `" ++ key ++ "`: " ++ message

structure RuleConfig where
  enabled : Option Bool := none
  severity : Option Severity := none
  options : Toml.Entries := []

namespace RuleConfig

def option? (config : RuleConfig) (key : String) : Option Toml.Value :=
  config.options.get? key

def getBool (config : RuleConfig) (key : String) (default : Bool) : Bool :=
  ((config.option? key).bind Toml.Value.boolean?).getD default

def getInt (config : RuleConfig) (key : String) (default : Int) : Int :=
  ((config.option? key).bind Toml.Value.integer?).getD default

def getString? (config : RuleConfig) (key : String) : Option String :=
  (config.option? key).bind Toml.Value.string?

def getStrings (config : RuleConfig) (key : String) : List String :=
  (((config.option? key).bind Toml.Value.array?).getD []).filterMap Toml.Value.string?

end RuleConfig

structure Config where
  preset : Option String := none
  failOn : Option String := none
  reportSyntaxErrors : Bool := true
  maxFixPasses : Nat := 10
  rules : List (String × RuleConfig) := []

namespace Config

def rule? (config : Config) (name : String) : Option RuleConfig :=
  config.rules.lookup name

/-- A rule runs unless its settings turn it off. -/
def isRuleEnabled (config : Config) (name : String) : Bool :=
  ((config.rule? name).bind RuleConfig.enabled).getD true

def ruleSeverity? (config : Config) (name : String) : Option Severity :=
  (config.rule? name).bind RuleConfig.severity

/-- The severity from which on a check fails. -/
def failOnSeverity (config : Config) : Except ConfigError Severity :=
  match config.failOn with
  | none => .ok .error
  | some text =>
    match Severity.ofText? text with
    | some severity => .ok severity
    | none => .error (.invalidValue "fail_on" (Severity.unknownMessage text))

section Reading

variable {α : Type}

/-- Reads the value of a key, if it is there; fails if the value has the wrong form. -/
def readKey (entries : Toml.Entries) (key : String) (read : Toml.Value → Option α) :
    Option (Option α) :=
  match entries.get? key with
  | none => some none
  | some value => (read value).map some

def readPasses (value : Toml.Value) : Option Nat :=
  value.integer?.bind fun i => if 0 ≤ i then some i.toNat else none

/-- The section of the linter: whether faults of form are reported, and the number of passes. -/
def readLinter : Toml.Value → Option (Option Bool × Option Nat)
  | .table entries => do
    let report ← readKey entries "report_syntax_errors" Toml.Value.boolean?
    let passes ← readKey entries "max_fix_passes" readPasses
    return (report, passes)
  | .array [] => some (none, none)
  | .array [report] => do return (some (← report.boolean?), none)
  | .array (report :: passes :: _) => do
    return (some (← report.boolean?), some (← readPasses passes))
  | _ => none

/-- A severity by its name, which may be the only key of a table with nothing in it. -/
def readSeverity : Toml.Value → Option Severity
  | .string name => Severity.ofName? name
  | .table [(name, .table [])] => Severity.ofName? name
  | .table [(name, .array [])] => Severity.ofName? name
  | _ => none

def readRule (value : Toml.Value) : Option RuleConfig := do
  let entries ← value.table?
  let enabled ← readKey entries "enabled" Toml.Value.boolean?
  let severity ← readKey entries "severity" readSeverity
  return ⟨enabled, severity,
    entries.filter fun entry => entry.1 != "enabled" && entry.1 != "severity"⟩

def readRules (value : Toml.Value) : Option (List (String × RuleConfig)) := do
  let entries ← value.table?
  entries.mapM fun entry => do return (entry.1, ← readRule entry.2)

def ofEntries? (entries : Toml.Entries) : Option Config := do
  let preset ← readKey entries "preset" Toml.Value.string?
  let failOn ← readKey entries "fail_on" Toml.Value.string?
  let linter ← readKey entries "linter" readLinter
  let rules ← readKey entries "rules" readRules
  let defaults : Config := {}
  let (report, passes) := linter.getD (none, none)
  return {
    preset := preset
    failOn := failOn
    reportSyntaxErrors := report.getD defaults.reportSyntaxErrors
    maxFixPasses := passes.getD defaults.maxFixPasses
    rules := rules.getD [] }

def parse (text : String) : Except ConfigError Config :=
  match (Toml.parse? text).bind ofEntries? with
  | some config => .ok config
  | none => .error .malformed

end Reading

end Config
end ScriptLint
