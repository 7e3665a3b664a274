import ScriptLint.Parse.Fault

/-!
# Reading tokens

A cursor is a place in a list of tokens, with the diagnostics found on the way to it.  A parser
takes a cursor to a value and a later cursor; it never fails, because faults are reported and
reading goes on.

**Repetition.** `Parser.iterate` repeats a step that says whether to go on.  A step that reads no
token is the last one, so repetition ends on every list of tokens.
-/

namespace ScriptLint

/-- A place in a list of tokens. -/
structure Cursor where
  rest : List Token
  left : Nat
  stop : Position
  /-- Where the last token of content ended. -/
  lastEnd : Position
  /-- Operations applied in the expression being read. -/
  operations : Nat
  /-- The diagnostics so far, the newest first. -/
  diagnostics : List Diagnostic
  left_eq : left = rest.length

namespace Cursor

def start (tokens : List Token) (stop : Position) : Cursor where
  rest := tokens
  left := tokens.length
  stop := stop
  lastEnd := (tokens.head?.map (·.span.start)).getD stop
  operations := 0
  diagnostics := []
  left_eq := rfl

/-- The next token; past the last one it is the end of the input. -/
def current (c : Cursor) : Token :=
  c.rest.headD (Token.endAt c.stop)

def drop (n : Nat) (c : Cursor) : Cursor :=
  { c with
    rest := c.rest.drop n
    left := c.left - n
    left_eq := by rw [c.left_eq, List.length_drop] }

def advance (c : Cursor) : Cursor :=
  if c.current.kind.isStructural then c.drop 1
  else { c.drop 1 with lastEnd := c.current.span.stop }

def before (stops : Token.Kind → Bool) (c : Cursor) : List Token :=
  c.rest.takeWhile fun t => !stops t.kind

/-- The cursor at the first token of a stopping kind; structural kinds are among them. -/
def skipTo (stops : Token.Kind → Bool) (c : Cursor) : Cursor :=
  let skipped := c.before stops
  { c.drop skipped.length with
    lastEnd := (skipped.getLast?.map (·.span.stop)).getD c.lastEnd }

def report (c : Cursor) (fault : Fault) (span : Span) : Cursor :=
  { c with diagnostics := ⟨fault, span⟩ :: c.diagnostics }

end Cursor

/-- A reader of tokens. -/
def Parser (α : Type) : Type :=
  Cursor → α × Cursor

namespace Parser

@[always_inline]
instance : Monad Parser where
  pure a := fun c => (a, c)
  bind p f := fun c =>
    let result := p c
    f result.1 result.2

section Steps

variable {α σ : Type}

def peek : Parser Token :=
  fun c => (c.current, c)

def next : Parser Token :=
  fun c => (c.current, c.advance)

def skipTo (stops : Token.Kind → Bool) : Parser Unit :=
  fun c => ((), c.skipTo stops)

/-- Reads up to the end of the line and gives what was read. -/
def takeLine : Parser (List Token) :=
  fun c => (c.before Token.Kind.isStructural, c.skipTo Token.Kind.isStructural)

def report (fault : Fault) (span : Span) : Parser Unit :=
  fun c => ((), c.report fault span)

def reportHere (fault : Fault) : Parser Unit :=
  fun c => ((), c.report fault c.current.span)

def lastEnd : Parser Position :=
  fun c => (c.lastEnd, c)

def spanFrom (start : Position) : Parser Span :=
  fun c => (Span.between start c.lastEnd, c)

def atMark (mark : String) : Parser Bool :=
  fun c => (c.current.isPunctuation mark, c)

def atOperator (op : String) : Parser Bool :=
  fun c => (c.current.isOperator op, c)

def atKind (kind : Token.Kind) : Parser Bool :=
  fun c => (c.current.kind == kind, c)

/-- No expression goes on at the next token. -/
def atBoundary : Parser Bool :=
  fun c => (c.current.kind.isBoundary, c)

/-- The line ends at the next token. -/
def atLineEnd : Parser Bool :=
  fun c => (c.current.kind.isStructural, c)

def skipKind (kind : Token.Kind) : Parser Unit := do
  if ← atKind kind then
    let _ ← next

/-- Reads a closing mark, or reports that it is missing. -/
def expectMark (mark : String) : Parser Unit := do
  if ← atMark mark then
    let _ ← next
  else
    reportHere (.missingMark mark)

def resetOperations : Parser Unit :=
  fun c => ((), { c with operations := 0 })

/-- Reads other tokens with a parser and keeps its diagnostics. -/
def within (tokens : List Token) (stop : Position) (p : Parser α) : Parser α :=
  fun c =>
    let result := p (Cursor.start tokens stop)
    (result.1, { c with diagnostics := result.2.diagnostics ++ c.diagnostics })

/-- Repeats a step while it says so and reads on. -/
def iterate (step : σ → Parser (σ × Bool)) (s : σ) (c : Cursor) : σ × Cursor :=
  let result := step s c
  if result.1.2 && result.2.left < c.left then
    iterate step result.1.1 result.2
  else
    (result.1.1, result.2)
termination_by c.left
decreasing_by grind

def loop (first : σ) (step : σ → Parser (σ × Bool)) : Parser σ :=
  iterate step first

end Steps

end Parser
end ScriptLint
