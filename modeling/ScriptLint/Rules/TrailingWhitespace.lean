import ScriptLint.Rule
import ScriptLint.Text.Line
import ScriptLint.Text.Blank

/-!
# Spaces and tabs at the end of a line

The rule `no-trailing-whitespace` finds lines that end in spaces or tabs, with a fix that deletes
them.  Lines of nothing else can be left out.  A byte-order mark takes no column.
-/

namespace ScriptLint
namespace Rules
namespace TrailingWhitespace

def name : String :=
  "no-trailing-whitespace"

/-- The content of a line without the spaces and tabs at its end. -/
def trimmed (content : List Char) : List Char :=
  Text.dropEndWhile Text.isGap content

/-- A line is blank when nothing, or a byte-order mark alone, is left of it. -/
def isBlankRest (rest : List Char) : Bool :=
  rest.isEmpty || rest == [Text.byteOrderMark]

/-- The place on a line after some of its characters; the line starts at an offset. -/
def positionAfter (line offset : Nat) (before : List Char) : Position :=
  let mark := if line = 1 ∧ before.head? = some Text.byteOrderMark then 1 else 0
  ⟨line, before.length + 1 - mark, offset + Text.byteLength before⟩

/-- The finding on a line, which starts at an offset. -/
def checkLine (skipBlank : Bool) (line offset : Nat) (content : List Char) : Option Finding :=
  let rest := trimmed content
  if rest.length < content.length && !(isBlankRest rest && skipBlank) then
    let span := Span.between (positionAfter line offset rest) (positionAfter line offset content)
    some (.withFix "Trailing whitespace" span (.delete span))
  else
    none

/-- The findings on lines that are numbered from `line` on and start at an offset. -/
def checkLines (skipBlank : Bool) : (line offset : Nat) → List Text.Line → List Finding
  | _, _, [] => []
  | line, offset, first :: rest =>
    (checkLine skipBlank line offset first.content).toList ++
      checkLines skipBlank (line + 1) (offset + Text.byteLength first.full) rest

def findings (skipBlank : Bool) (source : String) : List Finding :=
  checkLines skipBlank 1 0 (Text.lines source.toList)

end TrailingWhitespace

/-- The rule on spaces and tabs at the end of a line. -/
def trailingWhitespace (skipBlank : Bool) (severity : Severity) : Rule where
  name := TrailingWhitespace.name
  code := "GT004"
  description := "Flags spaces and tabs at the end of a line"
  severity := severity
  fixable := true
  check := fun context _ => TrailingWhitespace.findings skipBlank context.source

end Rules
end ScriptLint
