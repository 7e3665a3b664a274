/-!
# Lines of a text

A line ends at a line feed, at a carriage return, or at a carriage return followed by a line feed.
The last line may have no ending, and no empty line follows a final ending.
-/

namespace ScriptLint
namespace Text

/-- A line: its content and its ending. -/
structure Line where
  content : List Char
  ending : List Char
deriving DecidableEq, Repr

def Line.full (line : Line) : List Char :=
  line.content ++ line.ending

def isLineEnd (c : Char) : Bool :=
  c == '\n' || c == '\r'

/-- Puts a character in front of the first of the lines. -/
def consToFirst (c : Char) : List Line → List Line
  | [] => [⟨[c], []⟩]
  | line :: lines => ⟨c :: line.content, line.ending⟩ :: lines

def lines : List Char → List Line
  | [] => []
  | '\r' :: '\n' :: rest => ⟨[], ['\r', '\n']⟩ :: lines rest
  | c :: rest => if isLineEnd c then ⟨[], [c]⟩ :: lines rest else consToFirst c (lines rest)

/-- The text without one line ending at its end. -/
def stripEnding (cs : List Char) : List Char :=
  match cs.reverse with
  | '\n' :: '\r' :: rest => rest.reverse
  | '\n' :: rest => rest.reverse
  | '\r' :: rest => rest.reverse
  | _ => cs

def byteOrderMark : Char :=
  Char.ofNat 0xFEFF

/-- The text without a leading byte-order mark. -/
def withoutMark : List Char → List Char
  | [] => []
  | c :: rest => if c = byteOrderMark then rest else c :: rest

@[simp]
theorem flatMap_full_consToFirst (c : Char) (ls : List Line) :
    (consToFirst c ls).flatMap Line.full = c :: ls.flatMap Line.full := by
  cases ls <;> simp [consToFirst, Line.full]

/-- The lines of a text join to the text. -/
theorem flatMap_full_lines (cs : List Char) : (lines cs).flatMap Line.full = cs := by
  fun_induction lines cs with
  | case1 => rfl
  | case2 rest ih => simp [Line.full, ih]
  | case3 c rest _ hc ih => simp [Line.full, ih]
  | case4 c rest _ hc ih => simp [ih]

end Text
end ScriptLint
