import ScriptLint.Text.Lowercase

/-!
# Severities

How much an issue matters: information, a warning or an error, in rising order.
-/

namespace ScriptLint

/-- How much an issue matters. -/
inductive Severity where
  | info
  | warning
  | error
deriving DecidableEq, Repr

namespace Severity

/-- All severities in rising order. -/
def all : List Severity :=
  [info, warning, error]

def rank : Severity → Nat
  | info => 0
  | warning => 1
  | error => 2

def reaches (severity threshold : Severity) : Bool :=
  threshold.rank ≤ severity.rank

def name : Severity → String
  | info => "info"
  | warning => "warning"
  | error => "error"

/-- The severity with exactly this name. -/
def ofName? (name : String) : Option Severity :=
  all.find? fun severity => severity.name == name

/-- The severity that a text asks for: a name or `warn`, up to the case of ASCII letters. -/
def ofText? (text : String) : Option Severity :=
  let word := Text.asciiLower text
  if word = "warn" then some warning else ofName? word

/-- What is said of a text that asks for no severity. -/
def unknownMessage (text : String) : String :=
  "unknown severity `" ++ Text.asciiLower text ++ "`. Valid values: error, warning, info"

end Severity
end ScriptLint
