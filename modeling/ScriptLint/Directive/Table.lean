import ScriptLint.Directive.Basic

/-!
# What directives say about each line

**Algorithm.** The lines are read in order with the regions that are open: one for all rules, one
for each rule turned off by name, and one for formatting.  A directive that turns something off
opens a region at its line, unless one is open; a directive that turns it on closes the region
before its line.  Regions left open run through the last line.

The table holds closed regions and, for each contract, the first line that declares a name.
-/

namespace ScriptLint

/-- The rules that a region turns off. -/
inductive Scope where
  | all
  | rule (name : String)
deriving DecidableEq, Repr

namespace Scope

def covers : Scope → String → Bool
  | all, _ => true
  | rule name, other => name == other

/-- The scopes of a list of rules; an empty list stands for all. -/
def ofRules (rules : List String) : List Scope :=
  if rules.isEmpty then [all] else rules.map rule

end Scope

/-- Lines from a first one up to, and not including, another. -/
structure LineRange where
  first : Nat
  stop : Nat
deriving DecidableEq, Repr

def LineRange.contains (range : LineRange) (line : Nat) : Bool :=
  range.first ≤ line && line < range.stop

/-- The rules in a scope are turned off on some lines. -/
structure Suppression where
  scope : Scope
  lines : LineRange
deriving DecidableEq, Repr

/-- A name declared in a contract, with the line of its first declaration. -/
structure Declaration where
  contract : Contract
  name : String
  line : Nat
deriving DecidableEq, Repr

/-- What the directives of a source say. -/
structure DirectiveTable where
  suppressions : List Suppression
  unformatted : List LineRange
  declarations : List Declaration
deriving DecidableEq, Repr

namespace DirectiveTable

def empty : DirectiveTable :=
  ⟨[], [], []⟩

def isSuppressed (table : DirectiveTable) (line : Nat) (rule : String) : Bool :=
  table.suppressions.any fun s => s.lines.contains line && s.scope.covers rule

def scopesAt (table : DirectiveTable) (line : Nat) : List Scope :=
  (table.suppressions.filter (·.lines.contains line)).map Suppression.scope

def isFormatSuppressed (table : DirectiveTable) (line : Nat) : Bool :=
  table.unformatted.any (·.contains line)

def contract (table : DirectiveTable) (contract : Contract) : List Declaration :=
  table.declarations.filter (·.contract == contract)

def declares (table : DirectiveTable) (contract : Contract) (name : String) : Bool :=
  (table.contract contract).any (·.name == name)

/-- The table with scopes turned off on a range of lines. -/
def suppress (table : DirectiveTable) (scopes : List Scope) (lines : LineRange) :
    DirectiveTable :=
  { table with suppressions := table.suppressions ++ scopes.map (⟨·, lines⟩) }

/-- The table with a name declared on a line, unless it is declared already. -/
def declare (table : DirectiveTable) (contract : Contract) (line : Nat) (name : String) :
    DirectiveTable :=
  if table.declares contract name then table
  else { table with declarations := table.declarations ++ [⟨contract, name, line⟩] }

end DirectiveTable

/-- The regions that are open, each with the line that opened it. -/
structure OpenRegions where
  scopes : List (Scope × Nat)
  format : Option Nat
deriving DecidableEq, Repr

namespace OpenRegions

def none : OpenRegions :=
  ⟨[], Option.none⟩

/-- Opens a region for a scope, unless one is open. -/
def openScope (regions : OpenRegions) (line : Nat) (scope : Scope) : OpenRegions :=
  if regions.scopes.any (·.1 == scope) then regions
  else { regions with scopes := regions.scopes ++ [(scope, line)] }

/-- Opens regions for rules; an empty list stands for all. -/
def disable (regions : OpenRegions) (line : Nat) (rules : List String) : OpenRegions :=
  (Scope.ofRules rules).foldl (openScope · line) regions

/-- Opens the region for formatting, unless it is open. -/
def disableFormat (regions : OpenRegions) (line : Nat) : OpenRegions :=
  { regions with format := regions.format.or (some line) }

/-- The scope is among those that are turned on; an empty list of rules stands for all scopes. -/
def isEnabled (rules : List String) : Scope → Bool
  | .all => rules.isEmpty
  | .rule name => rules.isEmpty || rules.contains name

end OpenRegions

namespace DirectiveTable

/-- Closes the regions of rules before a line; an empty list stands for all regions. -/
def enable (state : DirectiveTable × OpenRegions) (line : Nat) (rules : List String) :
    DirectiveTable × OpenRegions :=
  let (closed, left) := state.2.scopes.partition fun entry => OpenRegions.isEnabled rules entry.1
  let table := closed.foldl (fun table entry => table.suppress [entry.1] ⟨entry.2, line⟩) state.1
  (table, { state.2 with scopes := left })

/-- Closes the region for formatting before a line. -/
def enableFormat (state : DirectiveTable × OpenRegions) (line : Nat) :
    DirectiveTable × OpenRegions :=
  match state.2.format with
  | none => state
  | some first =>
    ({ state.1 with unformatted := state.1.unformatted ++ [⟨first, line⟩] },
      { state.2 with format := none })

def apply (state : DirectiveTable × OpenRegions) (line : Nat) :
    Directive → DirectiveTable × OpenRegions
  | .disable rules => (state.1, state.2.disable line rules)
  | .enable rules => enable state line rules
  | .disableNextLine rules =>
    (state.1.suppress (Scope.ofRules rules) ⟨line + 1, line + 2⟩, state.2)
  | .disableLine rules => (state.1.suppress (Scope.ofRules rules) ⟨line, line + 1⟩, state.2)
  | .formatDisable => (state.1, state.2.disableFormat line)
  | .formatEnable => enableFormat state line
  | .disableAll rules => (state.1, (state.2.disableFormat line).disable line rules)
  | .enableAll rules => enable (enableFormat state line) line rules
  | .declare contract names => (names.foldl (declare · contract line) state.1, state.2)

/-- The effect of the directives on lines that are numbered from `line` on. -/
def applyLines : Nat → DirectiveTable × OpenRegions → List Text.Line →
    DirectiveTable × OpenRegions
  | line, state, [] => enable (enableFormat state line) line []
  | line, state, first :: rest =>
    match Directive.ofLine? first.content with
    | none => applyLines (line + 1) state rest
    | some directive => applyLines (line + 1) (apply state line directive) rest

def ofSource (source : String) : DirectiveTable :=
  (applyLines 1 (empty, OpenRegions.none) (Text.lines (Text.withoutMark source.toList))).1

end DirectiveTable
end ScriptLint
