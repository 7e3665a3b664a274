import ScriptLint.Rule
import ScriptLint.Vocabulary
import ScriptLint.Text.EditDistance

/-!
# Keywords of the language

The rule `valid-keyword` finds names that are no keyword, with the nearest keyword as a hint, and
keywords that are not written in lower case, with a fix.
-/

namespace ScriptLint
namespace Rules
namespace ValidKeyword

def name : String :=
  "valid-keyword"

/-- Greatest edit distance at which a keyword is offered as a hint. -/
def maxDistance : Nat :=
  2

/-- The nearest keyword or sub-keyword, if it is near enough. -/
def suggest (name : String) : Option String :=
  match Text.nearest? name (Vocabulary.keywords ++ Vocabulary.subKeywords) with
  | none => none
  | some (distance, candidate) => if distance ≤ maxDistance then some candidate else none

/-- The message for a name that is no keyword. -/
def unknownMessage (keyword lower : String) : String :=
  match suggest lower with
  | some candidate => "Unknown keyword `*" ++ keyword ++ "`, did you mean `*" ++ candidate ++ "`?"
  | none => "Unknown keyword `*" ++ keyword ++ "`"

/-- The finding on a header, if its name is at fault; a missing name is a fault of form. -/
def checkHeader (header : Header) : Option Finding :=
  let lower := Text.lower header.name
  if header.name = "" then
    none
  else if !Vocabulary.isKnown lower then
    some (.plain (unknownMessage header.name lower) header.nameSpan)
  else if header.name ≠ lower then
    some (.withFix ("Keyword `*" ++ header.name ++ "` should be written `*" ++ lower ++ "`")
      header.nameSpan (.replace header.nameSpan lower))
  else
    none

def findings (nodes : List Node) : List Finding :=
  nodes.filterMap fun node => node.header?.bind checkHeader

end ValidKeyword

/-- The rule on the names of keywords. -/
def validKeyword (severity : Severity) : Rule where
  name := ValidKeyword.name
  code := "GT001"
  description := "Flags unknown keywords and keywords not written in lowercase"
  severity := severity
  fixable := true
  check := fun _ nodes => ValidKeyword.findings nodes

end Rules
end ScriptLint
