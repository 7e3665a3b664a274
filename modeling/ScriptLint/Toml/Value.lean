import ScriptLint.Number.Binary64
import ScriptLint.Toml.DateTime

/-!
# Values of a settings document

A document is a table of named values.  Values are strings, integers of 64 bits, binary numbers,
truth values, dates and times, arrays and tables.
-/

namespace ScriptLint
namespace Toml

/-- A value; the entries of a table keep the order in which they were written. -/
inductive Value where
  | string (s : String)
  | integer (i : Int)
  | float (x : Binary64)
  | boolean (b : Bool)
  | dateTime (d : DateTime)
  | array (values : List Value)
  | table (entries : List (String × Value))

abbrev Entries := List (String × Value)

def Entries.get? (entries : Entries) (key : String) : Option Value :=
  List.lookup key entries

namespace Value

def string? : Value → Option String
  | string s => some s
  | _ => none

def integer? : Value → Option Int
  | integer i => some i
  | _ => none

def boolean? : Value → Option Bool
  | boolean b => some b
  | _ => none

def array? : Value → Option (List Value)
  | array values => some values
  | _ => none

def table? : Value → Option Entries
  | table entries => some entries
  | _ => none

/-- The text of a value that is written as text: a string, or a date or time. -/
def text? : Value → Option String
  | string s => some s
  | dateTime d => some d.text
  | _ => none

/-- The texts of an array, if the value is one and holds nothing else. -/
def texts? (value : Value) : Option (List String) :=
  value.array?.bind fun values => values.mapM text?

/-- The integer, if the value is one of a single byte. -/
def byte? (value : Value) : Option Nat :=
  value.integer?.bind fun i => if 0 ≤ i && i < 256 then some i.toNat else none

/-- The least and the greatest integer are those of 64 bits. -/
def isInRange (i : Int) : Bool :=
  -0x8000000000000000 ≤ i && i < 0x8000000000000000

end Value
end Toml
end ScriptLint
