import ScriptLint.Config
import ScriptLint.Rules.TrailingWhitespace
import ScriptLint.Rules.ValidKeyword
import ScriptLint.Rules.Variables

/-!
# Presets

Sets of rules under a name.  The settings give options to the rules of a preset; whether a rule
runs, and how severe it is, is for the linter.
-/

namespace ScriptLint

/-- A set of rules. -/
inductive Preset where
  /-- All rules. -/
  | recommended
  /-- All rules; unused variables are errors. -/
  | strict
  /-- The rules on keywords and on undefined variables. -/
  | minimal
deriving DecidableEq, Repr

namespace Preset

def all : List Preset :=
  [recommended, strict, minimal]

/-- The preset when the settings name none. -/
def default : Preset :=
  recommended

def name : Preset → String
  | recommended => "recommended"
  | strict => "strict"
  | minimal => "minimal"

def ofName? (name : String) : Option Preset :=
  all.find? fun preset => preset.name == name

/-- The names in an option of a rule. -/
def namesIn (config : Config) (rule option : String) : List String :=
  match config.rule? rule with
  | none => []
  | some settings => settings.getStrings option

/-- The severity of unused variables in the preset. -/
def unusedSeverity : Preset → Severity
  | strict => .error
  | _ => .warning

/-- The rules of the preset with the options that the settings give them. -/
def configuredRules (preset : Preset) (config : Config) : List Rule :=
  let keyword := Rules.validKeyword .error
  let undefined := Rules.undefinedVariables
    (namesIn config Rules.UndefinedVariables.name "globals") .error
  let unused := Rules.unusedVariables
    (namesIn config Rules.UnusedVariables.name "ignore") preset.unusedSeverity
  let skipBlank := ((config.rule? Rules.TrailingWhitespace.name).map
    (·.getBool "skip_blank_lines" false)).getD false
  match preset with
  | minimal => [keyword, undefined]
  | _ => [keyword, undefined, unused, Rules.trailingWhitespace skipBlank .warning]

def rules (preset : Preset) : List Rule :=
  preset.configuredRules {}

def ofConfig (config : Config) : Except ConfigError Preset :=
  match config.preset with
  | none => .ok default
  | some name =>
    match ofName? name with
    | some preset => .ok preset
    | none =>
      .error (.invalidValue "preset"
        ("unknown preset `" ++ name ++ "`, expected one of: " ++
          ", ".intercalate (all.map Preset.name)))

end Preset
end ScriptLint
