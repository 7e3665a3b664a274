import ScriptLint.Token.Expression

/-!
# Directives

A directive is a comment that speaks to the checker: it turns rules off or on, for a line or from a
line on, or it says which variables come from, or go to, another program.

**Comments.** A line is a comment when two hyphens begin it.  On a line with an expression a comment
begins at two hyphens outside quotes.

**Lists.** Names are separated by commas and white space; two hyphens end the list, and a reason may
follow.
-/

namespace ScriptLint

/-- How a variable crosses the border of a program. -/
inductive Contract where
  | fromParent
  | toParent
  | fromChild
  | toChild
deriving DecidableEq, Repr

namespace Contract

def all : List Contract :=
  [fromParent, toParent, fromChild, toChild]

/-- The word for the contract in a directive, after an at sign. -/
def name : Contract → String
  | fromParent => "from-parent"
  | toParent => "to-parent"
  | fromChild => "from-child"
  | toChild => "to-child"

/-- The contract that a directive begins with. -/
def ofHead? (head : String) : Option Contract :=
  all.find? fun contract => "@" ++ contract.name == head

end Contract

/-- A directive; an empty list of rules stands for all rules. -/
inductive Directive where
  /-- Turns rules off from this line on. -/
  | disable (rules : List String)
  /-- Turns rules on from this line on. -/
  | enable (rules : List String)
  /-- Turns rules off for the next line. -/
  | disableNextLine (rules : List String)
  /-- Turns rules off for this line. -/
  | disableLine (rules : List String)
  /-- Turns formatting off from this line on. -/
  | formatDisable
  /-- Turns formatting on from this line on. -/
  | formatEnable
  /-- Turns formatting and rules off from this line on. -/
  | disableAll (rules : List String)
  /-- Turns formatting and rules on from this line on. -/
  | enableAll (rules : List String)
  /-- Declares variables. -/
  | declare (contract : Contract) (names : List String)
deriving DecidableEq, Repr

namespace Directive

/-- The comment after an expression: what follows two hyphens outside quotes.  `quote` is the open
quote, and `hyphen` says that the character before is a hyphen. -/
def commentAfter (quote : Option Char) (hyphen : Bool) : List Char → Option (List Char)
  | [] => none
  | c :: rest =>
    match quote with
    | some q => commentAfter (if c = q then none else some q) hyphen rest
    | none =>
      if Piece.isQuote c then commentAfter (some c) false rest
      else if c = '-' && hyphen then some rest
      else commentAfter none (c == '-') rest

def commentOf (line : List Char) : Option (List Char) :=
  match Text.trimStart line with
  | '-' :: '-' :: rest => some rest
  | '>' :: '>' :: rest => commentAfter none false rest
  | _ => none

/-- The text before the first two hyphens. -/
def beforeReason : List Char → List Char
  | [] => []
  | '-' :: '-' :: _ => []
  | c :: rest => c :: beforeReason rest

/-- A character between the names of a list. -/
def isSeparator (c : Char) : Bool :=
  c == ',' || Text.isBlank c

def names (text : List Char) : List String :=
  (((beforeReason text).splitOnP isSeparator).filter (!·.isEmpty)).map String.ofList

/-- The directive with a head and a list of rules. -/
def ofHead? (head : String) (rules : List String) : Option Directive :=
  match head with
  | "gtlint-disable" => some (disable rules)
  | "gtlint-enable" => some (enable rules)
  | "gtlint-disable-next-line" => some (disableNextLine rules)
  | "gtlint-disable-line" => some (disableLine rules)
  | "gtformat-disable" => some formatDisable
  | "gtformat-enable" => some formatEnable
  | "gt-disable" => some (disableAll rules)
  | "gt-enable" => some (enableAll rules)
  | _ => none

/-- The directive that begins with an at sign. -/
def ofContract? (text : List Char) : Option Directive :=
  match text.dropWhile (· ≠ ':') with
  | [] => none
  | _ :: list =>
    let head := Text.trim (text.takeWhile (· ≠ ':'))
    (Contract.ofHead? (String.ofList head)).map (declare · (names list))

def ofComment? (comment : List Char) : Option Directive :=
  let text := Text.trim comment
  if text.head? = some '@' then
    ofContract? text
  else
    let head := text.takeWhile (!Text.isBlank ·)
    ofHead? (String.ofList head) (names (text.drop (head.length + 1)))

def ofLine? (line : List Char) : Option Directive :=
  (commentOf line).bind ofComment?

end Directive
end ScriptLint
