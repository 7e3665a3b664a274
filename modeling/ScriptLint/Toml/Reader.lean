/-!
# Readers of characters

A reader takes a text to a value and the rest of the text, or fails.  `many` repeats a reader as
long as it succeeds and reads something, so it ends on every text.
-/

namespace ScriptLint

/-- A reader of characters, which may fail. -/
def Reader (α : Type) : Type :=
  List Char → Option (α × List Char)

namespace Reader

instance : Monad Reader where
  pure a := fun cs => some (a, cs)
  bind p f := fun cs =>
    match p cs with
    | none => none
    | some (a, rest) => f a rest

section Basic

variable {α β : Type}

def fail : Reader α :=
  fun _ => none

/-- Reads with the first reader, or with the second one if the first fails. -/
def orElse (p q : Reader α) : Reader α :=
  fun cs =>
    match p cs with
    | some result => some result
    | none => q cs

/-- Reads with the first of several readers that does not fail. -/
def firstOf (readers : List (Reader α)) : Reader α :=
  readers.foldr orElse fail

/-- Reads with a reader, or reads nothing if it fails. -/
def optional (p : Reader α) : Reader (Option α) :=
  fun cs =>
    match p cs with
    | some (a, rest) => some (some a, rest)
    | none => some (none, cs)

/-- Turns a missing value into a failure. -/
def ofOption (value : Option α) : Reader α :=
  fun cs => value.map (·, cs)

/-- One character of a class. -/
def satisfy (p : Char → Bool) : Reader Char
  | c :: rest => if p c then some (c, rest) else none
  | [] => none

/-- All characters of a class up to the first that is not of it. -/
def takeWhile (p : Char → Bool) : Reader (List Char) :=
  fun cs => some (cs.takeWhile p, cs.dropWhile p)

/-- At least one character of a class. -/
def takeSome (p : Char → Bool) : Reader (List Char) :=
  fun cs => if (cs.takeWhile p).isEmpty then none else takeWhile p cs

def exactly : List Char → Reader Unit
  | [] => fun cs => some ((), cs)
  | c :: text => fun cs =>
    match cs with
    | d :: rest => if c = d then exactly text rest else none
    | [] => none

def word (text : String) : Reader Unit :=
  exactly text.toList

/-- The end of the text. -/
def atEnd : Reader Unit
  | [] => some ((), [])
  | _ :: _ => none

/-- Succeeds if a reader would, and reads nothing. -/
def ahead (p : Reader α) : Reader Unit :=
  fun cs => (p cs).map fun _ => ((), cs)

/-- Repeats a reader until it fails or reads nothing. -/
def manyFrom (p : Reader α) (cs : List Char) : List α × List Char :=
  match p cs with
  | none => ([], cs)
  | some (a, rest) =>
    if rest.length < cs.length then
      let result := manyFrom p rest
      (a :: result.1, result.2)
    else
      ([], cs)
termination_by cs.length

def many (p : Reader α) : Reader (List α) :=
  fun cs => some (manyFrom p cs)

/-- Items with separators between them; there may be none. -/
def separated (item : Reader α) (separator : Reader β) : Reader (List α) :=
  firstOf
    [do
      let first ← item
      let rest ← many do
        let _ ← separator
        item
      return first :: rest,
     pure []]

end Basic

end Reader
end ScriptLint
