import ScriptLint.Toml.Value
import ScriptLint.Toml.Reader
import ScriptLint.Text.Blank
import ScriptLint.Number.Decimal

/-!
# Strings, numbers, dates and keys of a settings document

**Strings.** Basic strings stand between double quotes and have escapes; literal strings stand
between apostrophes and have none.  Three quotes open and close a string of several lines, whose
line endings are read as line feeds; a line ending right after the opening quotes is dropped.

**Numbers.** Underscores may stand between digits.  Integers have 64 bits and may be written in base
two, eight or sixteen.  A positive number that is too large for the binary format is refused.

**Dates and times.** A date has four digits for the year and two for the month and the day, which
must be one of the month.  A time has two digits each for hour, minute and second, and may have a
fraction, of which nine digits count.  A second may be the sixtieth.  A date with a time may name an
offset.

**Keys.** A key is a list of names with points between them; a name is bare or a string on one line.
-/

namespace ScriptLint
namespace Toml

open Reader

def isBeyondAscii (c : Char) : Bool :=
  0x80 ≤ c.toNat

/-- A character that a comment or a string may hold: a tab or no control character. -/
def isPlain (c : Char) : Bool :=
  c == '\t' || (0x20 ≤ c.toNat && c.toNat ≤ 0x7E) || isBeyondAscii c

def gap : Reader Unit := do
  let _ ← takeWhile Text.isGap
  return ()

/-- A line ending: a line feed, or a carriage return and a line feed. -/
def newline : Reader Unit :=
  orElse (exactly ['\n']) (exactly ['\r', '\n'])

/-- A comment, without the line ending. -/
def comment : Reader Unit := do
  exactly ['#']
  let _ ← takeWhile isPlain
  return ()

/-- The end of a line after its content: a comment may come first. -/
def lineEnd : Reader Unit := do
  gap
  let _ ← optional comment
  orElse newline atEnd

def isHexDigit (c : Char) : Bool :=
  c.isDigit || ('a' ≤ c && c ≤ 'f') || ('A' ≤ c && c ≤ 'F')

/-- The value of a digit in base sixteen or less. -/
def digitValue (c : Char) : Nat :=
  if c.isDigit then c.toNat - '0'.toNat else c.toLower.toNat - 'a'.toNat + 10

/-- The number with the given digits in a base. -/
def ofDigits (base : Nat) (digits : List Char) : Nat :=
  digits.foldl (fun n c => base * n + digitValue c) 0

/-- Hexadecimal digits, as many as given. -/
def hexDigits : Nat → Reader (List Char)
  | 0 => pure []
  | n + 1 => do
    let c ← satisfy isHexDigit
    let rest ← hexDigits n
    return c :: rest

/-- A character by its code point. -/
def codePoint (digits : Nat) : Reader Char := do
  let n := ofDigits 16 (← hexDigits digits)
  if n.isValidChar then
    return Char.ofNat n
  else
    fail

def escape : Reader Char := do
  exactly ['\\']
  match ← satisfy fun _ => true with
  | 'b' => return Char.ofNat 8
  | 't' => return '\t'
  | 'n' => return '\n'
  | 'f' => return Char.ofNat 12
  | 'r' => return '\r'
  | '"' => return '"'
  | '\\' => return '\\'
  | 'u' => codePoint 4
  | 'U' => codePoint 8
  | _ => fail

/-- A character that stands for itself in a basic string. -/
def basicChar : Reader Char :=
  satisfy fun c => isPlain c && c != '"' && c != '\\'

/-- A character that stands for itself in a literal string. -/
def literalChar : Reader Char :=
  satisfy fun c => isPlain c && c != '\''

def basicString : Reader String := do
  exactly ['"']
  let cs ← many (orElse basicChar escape)
  exactly ['"']
  return String.ofList cs

def literalString : Reader String := do
  exactly ['\'']
  let cs ← many literalChar
  exactly ['\'']
  return String.ofList cs

/-- A backslash at the end of a line, with the white space after it. -/
def continuation : Reader (List Char) := do
  exactly ['\\']
  gap
  newline
  let _ ← many (orElse (do let _ ← takeSome Text.isGap; return ()) newline)
  return []

/-- One quote, or two, inside a string of several lines. -/
def innerQuotes (quote : Char) : Reader (List Char) :=
  orElse
    (do
      exactly [quote]
      ahead (satisfy (· != quote))
      return [quote])
    (do
      exactly [quote, quote]
      ahead (satisfy (· != quote))
      return [quote, quote])

/-- The closing quotes of a string of several lines, with up to two quotes that belong to it. -/
def closingQuotes (quote : Char) : Reader (List Char) :=
  firstOf
    [do
      exactly (List.replicate 5 quote)
      return [quote, quote],
     do
      exactly (List.replicate 4 quote)
      return [quote],
     do
      exactly (List.replicate 3 quote)
      return []]

/-- A string of several lines; `piece` reads what is not a quote or a line ending. -/
def longString (quote : Char) (piece : Reader (List Char)) : Reader String := do
  exactly (List.replicate 3 quote)
  let _ ← optional newline
  let pieces ← many (firstOf [piece, do newline; return ['\n'], innerQuotes quote])
  let last ← closingQuotes quote
  return String.ofList (pieces.flatten ++ last)

def longBasicString : Reader String :=
  longString '"' (firstOf
    [do return [← basicChar],
     continuation,
     do return [← escape]])

def longLiteralString : Reader String :=
  longString '\'' (do return [← literalChar])

def string : Reader String :=
  firstOf [longBasicString, basicString, longLiteralString, literalString]

/-- Digits of a class, with single underscores between them; the underscores are dropped. -/
def digits (isDigit : Char → Bool) : Reader (List Char) := do
  let first ← satisfy isDigit
  let rest ← many do
    let _ ← optional (exactly ['_'])
    satisfy isDigit
  return first :: rest

/-- The digits of a decimal integer, which begin with a zero only if they are one. -/
def decimalDigits : Reader (List Char) :=
  orElse
    (do
      ahead (satisfy fun c => c.isDigit && c != '0')
      digits Char.isDigit)
    (do return [← satisfy Char.isDigit])

/-- A sign; true is a minus. -/
def sign : Reader Bool := do
  match ← optional (satisfy fun c => c == '+' || c == '-') with
  | some c => return c == '-'
  | none => return false

/-- The power of ten of a number. -/
def exponent : Reader Int := do
  let _ ← satisfy fun c => c == 'e' || c == 'E'
  let negative ← sign
  let n := Decimal.ofDigits (← digits Char.isDigit)
  return if negative then -(n : Int) else n

/-- A number with a fraction or a power of ten. -/
def decimalFloat : Reader Binary64 := do
  let negative ← sign
  let whole ← decimalDigits
  let fraction ← optional do
    exactly ['.']
    digits Char.isDigit
  let power ← optional exponent
  if fraction.isNone && power.isNone then
    fail
  else
    let places := fraction.getD []
    let decimal : Decimal :=
      ⟨negative, Decimal.ofDigits (whole ++ places), power.getD 0 - places.length⟩
    let x := decimal.toBinary64
    if x = Binary64.infinity false then fail else return x

/-- The words for infinity and for no number, with a sign. -/
def specialFloat : Reader Binary64 := do
  let negative ← sign
  orElse
    (do
      word "inf"
      return Binary64.infinity negative)
    (do
      word "nan"
      return Binary64.notANumber)

/-- The integer, if it has 64 bits. -/
def boundedInteger (i : Int) : Reader Value :=
  if Value.isInRange i then pure (.integer i) else fail

/-- An integer in a base that a word announces. -/
def basedInteger (mark : String) (base : Nat) (isDigit : Char → Bool) : Reader Value := do
  word mark
  boundedInteger (ofDigits base (← digits isDigit))

def decimalInteger : Reader Value := do
  let negative ← sign
  let n := Decimal.ofDigits (← decimalDigits)
  boundedInteger (if negative then -(n : Int) else n)

/-- Digits, as many as given. -/
def digitCount : Nat → Reader (List Char)
  | 0 => pure []
  | n + 1 => do
    let c ← satisfy Char.isDigit
    let rest ← digitCount n
    return c :: rest

/-- A number of two digits between two bounds. -/
def twoDigits (least greatest : Nat) : Reader Nat := do
  let n := Decimal.ofDigits (← digitCount 2)
  if least ≤ n && n ≤ greatest then return n else fail

def date : Reader Date := do
  let year := Decimal.ofDigits (← digitCount 4)
  exactly ['-']
  let month ← twoDigits 1 12
  exactly ['-']
  let day ← twoDigits 1 (Date.daysInMonth year month)
  return ⟨year, month, day⟩

/-- The part of a second, in nanoseconds. -/
def fraction : Reader Nat := do
  exactly ['.']
  let places := (← takeSome Char.isDigit).take 9
  return Decimal.ofDigits (places ++ List.replicate (9 - places.length) '0')

def time : Reader Time := do
  let hour ← twoDigits 0 23
  exactly [':']
  let minute ← twoDigits 0 59
  exactly [':']
  let second ← twoDigits 0 60
  let nanosecond ← optional fraction
  return ⟨hour, minute, second, nanosecond.getD 0⟩

def clockOffset : Reader ClockOffset :=
  orElse
    (do
      let _ ← satisfy fun c => c == 'Z' || c == 'z'
      return .none)
    (do
      let mark ← satisfy fun c => c == '+' || c == '-'
      let hours ← twoDigits 0 23
      exactly [':']
      let minutes ← twoDigits 0 59
      let count : Int := (hours * 60 + minutes : Nat)
      return .minutes (if mark == '-' then -count else count))

def dateTime : Reader DateTime :=
  orElse
    (do
      let day ← date
      let clock ← optional do
        let _ ← satisfy fun c => c == 'T' || c == 't' || c == ' '
        let time ← time
        let offset ← optional clockOffset
        return (time, offset)
      match clock with
      | some (time, offset) => return .moment day time offset
      | none => return .day day)
    (do return .clock (← time))

/-- A value without values inside it. -/
def scalar : Reader Value :=
  firstOf
    [do return .string (← string),
     do return .dateTime (← dateTime),
     do return .float (← orElse decimalFloat specialFloat),
     basedInteger "0x" 16 isHexDigit,
     basedInteger "0o" 8 fun c => c.isDigit && c < '8',
     basedInteger "0b" 2 fun c => c == '0' || c == '1',
     decimalInteger,
     do
      word "true"
      return .boolean true,
     do
      word "false"
      return .boolean false]

/-- A character of a bare name. -/
def isBareChar (c : Char) : Bool :=
  c.isAlphanum || c == '_' || c == '-'

/-- A name in a key. -/
def keyName : Reader String :=
  firstOf [basicString, literalString, do return String.ofList (← takeSome isBareChar)]

/-- Nesting of values, and number of names in a key, stay below this limit. -/
def nestingLimit : Nat :=
  80

/-- A key, with the white space around it. -/
def key : Reader (List String) := do
  let names ← separated (do gap; let name ← keyName; gap; return name) (exactly ['.'])
  if names.isEmpty || nestingLimit ≤ names.length then fail else return names

end Toml
end ScriptLint
