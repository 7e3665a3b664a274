import ScriptLint.Linter
import ScriptLint.Preset

/-!
# Checking sources and files

A check lints a source with the rules of the preset that the settings name, and passes if no issue
reaches the severity at which it is to fail.  The settings are looked at before the source: first
the severity, then the preset.
-/

namespace ScriptLint

/-- Files by name. -/
structure FileStore where
  files : List (String × ByteArray)

namespace FileStore

/-- The greatest number of bytes of a name in a path. -/
def nameLimit : Nat :=
  255

/-- The greatest number of bytes of a path. -/
def pathLimit : Nat :=
  4095

/-- The name of a directory itself; a path that ends in a stroke ends in an empty name. -/
def isHere (name : String) : Bool :=
  name == "" || name == "."

/-- The names in a path that lead from a directory into another one or to a file. -/
def steps (path : String) : List String :=
  (path.splitOn "/").filter (!isHere ·)

/-- The content of the file that some steps lead to; the last file counts. -/
def file? (store : FileStore) (path : List String) : Option ByteArray :=
  (store.files.reverse.find? fun file => steps file.1 == path).map Prod.snd

/-- Some file lies below a directory. -/
def isDirectory (store : FileStore) (path : List String) : Bool :=
  store.files.any fun file => path.isPrefixOf (steps file.1)

/-- Follows the names of a path from a directory to the content of a file.  Above the outermost
directory there are no files. -/
def follow (store : FileStore) :
    (directory : List String) → List String → Except ReadFault ByteArray
  | _, [] => .error .isDirectory
  | directory, name :: rest =>
    if isHere name then
      follow store directory rest
    else if name = ".." then
      if directory.isEmpty then
        .error (if rest.all fun name => isHere name || name == ".." then .isDirectory else .missing)
      else
        follow store directory.dropLast rest
    else if nameLimit < name.utf8ByteSize then
      .error .nameTooLong
    else
      let path := directory ++ [name]
      match store.file? path with
      | some bytes => if rest.isEmpty then .ok bytes else .error .notDirectory
      | none => if store.isDirectory path then follow store path rest else .error .missing

def bytes (store : FileStore) (path : String) : Except ReadFault ByteArray :=
  if path.toList.any (·.toNat == 0) then
    .error .nullInName
  else if path.isEmpty then
    .error .missing
  else if pathLimit < path.utf8ByteSize then
    .error .nameTooLong
  else
    store.follow [] (path.splitOn "/")

def read (store : FileStore) (path : String) : Except ReadFault String :=
  match store.bytes path with
  | .error fault => .error fault
  | .ok bytes =>
    match String.fromUTF8? bytes with
    | some text => .ok text
    | none => .error .notText

end FileStore

def Config.ofFile (store : FileStore) (path : String) : Except ConfigError Config :=
  match store.read path with
  | .error fault => .error (.unreadable path fault)
  | .ok text => Config.parse text

/-- A linter with the rules of the preset that the settings name. -/
def Linter.ofConfig (config : Config) : Except LintError Linter :=
  match Preset.ofConfig config with
  | .error error => .error (.config error)
  | .ok preset => Linter.build (preset.configuredRules config) config

structure CheckOutcome where
  report : Report
  failOn : Severity

namespace CheckOutcome

/-- No issue reaches the severity at which the check fails. -/
def passed (outcome : CheckOutcome) : Bool :=
  !outcome.report.hasIssuesAt outcome.failOn

def format (outcome : CheckOutcome) : String :=
  outcome.report.format outcome.failOn

end CheckOutcome

/-- The linter of some settings, with the severity at which a check fails. -/
def prepareCheck (config : Config) : Except LintError (Linter × Severity) := do
  let failOn ← config.failOnSeverity.mapError LintError.config
  let linter ← Linter.ofConfig config
  return (linter, failOn)

def checkSource (config : Config) (path source : String) : Except LintError CheckOutcome := do
  let (linter, failOn) ← prepareCheck config
  return ⟨linter.lint path source, failOn⟩

def checkFile (config : Config) (store : FileStore) (path : String) :
    Except LintError CheckOutcome := do
  let (linter, failOn) ← prepareCheck config
  let source ← (store.read path).mapError (LintError.unreadable path)
  return ⟨linter.lint path source, failOn⟩

end ScriptLint
