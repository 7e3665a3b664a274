/-!
# The words of the language

The names of keywords and sub-keywords, in lower case, and what a name says about the argument and
the body that follow it.
-/

namespace ScriptLint
namespace Vocabulary

def keywords : List String :=
  ["audio", "button", "chart", "clear", "component", "database", "email", "events", "experiment",
   "for", "goto", "group", "header", "html", "if", "image", "label", "list", "login", "maintain",
   "navigation", "page", "points", "program", "progress", "purchase", "question", "quit",
   "randomize", "repeat", "return", "service", "set", "settings", "share", "summary", "switch",
   "trigger", "video", "wait", "while"]

/-- Names of sub-keywords, which have a meaning on indented lines only. -/
def subKeywords : List String :=
  ["after", "answers", "before", "blank", "body", "cancel", "classes", "click", "confirm",
   "countdown", "data", "date", "default", "description", "error", "everytime", "hide", "icon",
   "identifier", "language", "max", "method", "min", "multiple", "name", "other", "path",
   "placeholder", "required", "save", "searchable", "send", "shuffle", "start", "subject",
   "success", "throwaway", "time", "tip", "to", "trigger", "type", "what", "when", "xaxis",
   "yaxis"]

/-- Keywords whose argument is an expression. -/
def expressionKeywords : List String :=
  ["if", "while", "repeat", "wait", "set", "for"]

/-- Sub-keywords whose argument is an expression. -/
def expressionSubKeywords : List String :=
  ["save", "answers"]

/-- The keyword whose argument is a loop header. -/
def loopKeyword : String :=
  "for"

/-- Keywords whose body is raw markup. -/
def markupKeywords : List String :=
  ["html"]

/-- Words that are operators inside expressions. -/
def operatorWords : List String :=
  ["and", "or", "not", "in"]

def isKeyword (name : String) : Bool :=
  keywords.contains name

def isSubKeyword (name : String) : Bool :=
  subKeywords.contains name

def isKnown (name : String) : Bool :=
  isKeyword name || isSubKeyword name

/-- The argument of the keyword, or of the sub-keyword, is an expression. -/
def takesExpression (name : String) (sub : Bool) : Bool :=
  if sub then expressionSubKeywords.contains name else expressionKeywords.contains name

def isMarkup (name : String) : Bool :=
  markupKeywords.contains name

end Vocabulary
end ScriptLint
