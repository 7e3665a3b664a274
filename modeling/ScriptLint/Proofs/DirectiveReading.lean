import ScriptLint.Directive.Table

/-!
# Directives read line by line

The table of directives records regions when they end.  Here it is compared with the plain reading
of a source: a state that says what is turned off, changed by the directive on each line, and
looked at after the line.

**Subjects.**  All rules, one rule and formatting are turned off and on in the same way.  A subject
is any of them, so that one argument serves the three kinds of regions.

**Results.**
* `openedAt_apply`, `covered_apply`, `isOpen_step`: what one directive does to the open regions, to
  the table and to the state.
* `covered_applyLines`: what the directives of all lines do, by induction over the lines.
* `isSuppressed_eq_merged`: what is turned off on a line is the union of the suppressions on it.
* `mem_declarations_applyLines`: the declarations are the first ones of each name.
-/

namespace ScriptLint

open List Text DirectiveTable

variable {table : DirectiveTable}

/-- What is turned off after a line. -/
structure LineState where
  all : Bool
  rules : List String
  format : Bool
deriving DecidableEq, Repr

namespace LineState

/-- Nothing is turned off. -/
def closed : LineState :=
  ⟨false, [], false⟩

/-- Turns rules off; no name stands for all rules. -/
def disable (s : LineState) (names : List String) : LineState :=
  if names.isEmpty then { s with all := true } else { s with rules := s.rules ++ names }

/-- Turns rules on; no name stands for all that is turned off. -/
def enable (s : LineState) (names : List String) : LineState :=
  if names.isEmpty then { s with all := false, rules := [] }
  else { s with rules := s.rules.filter (!names.contains ·) }

/-- The state after a directive. -/
def step (s : LineState) : Directive → LineState
  | .disable names => s.disable names
  | .enable names => s.enable names
  | .disableAll names => { s.disable names with format := true }
  | .enableAll names => { s.enable names with format := false }
  | .formatDisable => { s with format := true }
  | .formatEnable => { s with format := false }
  | .disableLine _ | .disableNextLine _ | .declare _ _ => s

/-- The state after a line. -/
def stepLine (s : LineState) (line : Line) : LineState :=
  match Directive.ofLine? line.content with
  | none => s
  | some directive => s.step directive

/-- The state after lines from the start of a source. -/
def after (lines : List Line) : LineState :=
  lines.foldl stepLine closed

end LineState

namespace Directive

/-- The directive on a line, where the first of the lines has the number `first`. -/
def onLine? (first : Nat) (lines : List Line) (line : Nat) : Option Directive :=
  if line < first then none else lines[line - first]?.bind fun l => ofLine? l.content

theorem onLine?_cons (first : Nat) (l : Line) (lines : List Line) (line : Nat) :
    onLine? first (l :: lines) line =
      if line = first then ofLine? l.content else onLine? (first + 1) lines line := by
  unfold onLine?
  rcases Nat.lt_trichotomy line first with hlt | rfl | hgt
  · rw [if_pos hlt, if_neg (by omega), if_pos (by omega)]
  · simp
  · have hsub : line - first = line - (first + 1) + 1 := by omega
    rw [if_neg (by omega), if_neg (by omega), if_neg (by omega), hsub, getElem?_cons_succ]

/-- A directive stands on the first line or on one of the others. -/
theorem exists_onLine?_cons (first : Nat) (l : Line) (lines : List Line)
    (line : Nat) (p : Directive → Prop) :
    (∃ d ∈ onLine? first (l :: lines) line, p d) ↔
      (line = first ∧ ∃ d ∈ ofLine? l.content, p d) ∨
        ∃ d ∈ onLine? (first + 1) lines line, p d := by
  rw [onLine?_cons]
  by_cases h : line = first
  · subst h
    have hnone : onLine? (line + 1) lines line = none := by
      rw [onLine?, if_pos (by omega)]
    simp [hnone]
  · simp [h]

/-- The directive declares a name in a contract. -/
def Declares : Directive → Contract → String → Prop
  | .declare contract names, other, name => contract = other ∧ name ∈ names
  | _, _, _ => False

/-- A line is the first one that declares a name in a contract. -/
def FirstDeclaredOn (first : Nat) (lines : List Line) (contract : Contract) (name : String)
    (line : Nat) : Prop :=
  (∃ d ∈ onLine? first lines line, d.Declares contract name) ∧
    ∀ earlier < line, ¬ ∃ d ∈ onLine? first lines earlier, d.Declares contract name

theorem firstDeclaredOn_cons (first : Nat) (l : Line) (lines : List Line)
    (contract : Contract) (name : String) (line : Nat) :
    FirstDeclaredOn first (l :: lines) contract name line ↔
      (line = first ∧ ∃ d ∈ ofLine? l.content, d.Declares contract name) ∨
        (¬ (∃ d ∈ ofLine? l.content, d.Declares contract name) ∧
          FirstDeclaredOn (first + 1) lines contract name line) := by
  unfold FirstDeclaredOn
  have hlow : ∀ m, (∃ d ∈ onLine? (first + 1) lines m, d.Declares contract name) → first < m := by
    rintro m ⟨d, hd, -⟩
    rcases Nat.lt_or_ge first m with hlt | hge
    · exact hlt
    · rw [onLine?, if_pos (by omega)] at hd
      cases hd
  simp only [exists_onLine?_cons]
  constructor
  · rintro ⟨⟨rfl, hd⟩ | hlater, hnone⟩
    · exact .inl ⟨rfl, hd⟩
    · refine .inr ⟨fun hd => hnone first (hlow line hlater) (.inl ⟨rfl, hd⟩), hlater, ?_⟩
      exact fun earlier hlt hdeclared => hnone earlier hlt (.inr hdeclared)
  · rintro (⟨rfl, hd⟩ | ⟨hd, hlater, hnone⟩)
    · refine ⟨.inl ⟨rfl, hd⟩, ?_⟩
      rintro earlier hlt (⟨heq, -⟩ | hdeclared)
      · omega
      · exact absurd (hlow earlier hdeclared) (by omega)
    · refine ⟨.inr hlater, ?_⟩
      rintro earlier hlt (⟨-, hdeclared⟩ | hdeclared)
      · exact hd hdeclared
      · exact hnone earlier hlt hdeclared

end Directive

/-- What a region turns off. -/
inductive Subject where
  | rules (scope : Scope)
  | format
deriving DecidableEq, Repr

/-- The subject is turned off in the state. -/
def LineState.IsOpen (s : LineState) : Subject → Prop
  | .rules .all => s.all
  | .rules (.rule name) => name ∈ s.rules
  | .format => s.format

/-- A region for the subject is open since a line. -/
def OpenRegions.OpenedAt (regions : OpenRegions) : Subject → Nat → Prop
  | .rules scope, first => (scope, first) ∈ regions.scopes
  | .format, first => regions.format = some first

/-- The table turns the subject off on a line. -/
def DirectiveTable.Covered (table : DirectiveTable) : Subject → Nat → Prop
  | .rules scope, line => ∃ s ∈ table.suppressions, s.scope = scope ∧ s.lines.contains line
  | .format, line => ∃ range ∈ table.unformatted, range.contains line

namespace Directive

/-- The directive opens a region for the subject. -/
def Opens : Directive → Subject → Prop
  | .disable names, .rules scope => scope ∈ Scope.ofRules names
  | .disableAll names, .rules scope => scope ∈ Scope.ofRules names
  | .disableAll _, .format => True
  | .formatDisable, .format => True
  | _, _ => False

/-- The directive closes a region for the subject. -/
def Closes : Directive → Subject → Prop
  | .enable names, .rules scope => OpenRegions.isEnabled names scope
  | .enableAll names, .rules scope => OpenRegions.isEnabled names scope
  | .enableAll _, .format => True
  | .formatEnable, .format => True
  | _, _ => False

/-- The directive turns the subject off on its own line only. -/
def HidesLine : Directive → Subject → Prop
  | .disableLine names, .rules scope => scope ∈ Scope.ofRules names
  | _, _ => False

/-- The directive turns the subject off on the next line only. -/
def HidesNextLine : Directive → Subject → Prop
  | .disableNextLine names, .rules scope => scope ∈ Scope.ofRules names
  | _, _ => False

end Directive

theorem LineRange.contains_iff {range : LineRange} {line : Nat} :
    range.contains line ↔ range.first ≤ line ∧ line < range.stop := by
  simp [LineRange.contains]

theorem LineRange.contains_single (n line : Nat) :
    (LineRange.mk n (n + 1)).contains line ↔ line = n := by
  rw [LineRange.contains_iff]
  show n ≤ line ∧ line < n + 1 ↔ line = n
  omega

namespace OpenRegions

theorem openedAt_openScope (regions : OpenRegions) (line : Nat) (scope : Scope)
    (x : Subject) (first : Nat) :
    (regions.openScope line scope).OpenedAt x first ↔
      regions.OpenedAt x first ∨
        (first = line ∧ x = .rules scope ∧ ¬ ∃ f, regions.OpenedAt x f) := by
  unfold openScope
  by_cases hopen : ∃ f, (scope, f) ∈ regions.scopes
  · have hany : regions.scopes.any (·.1 == scope) := by simpa [any_eq_true] using hopen
    rw [if_pos hany]
    constructor
    · exact .inl
    · rintro (h | ⟨-, rfl, hnone⟩)
      · exact h
      · exact absurd hopen hnone
  · have hany : ¬ regions.scopes.any (·.1 == scope) := by simpa [any_eq_true] using hopen
    rw [if_neg hany]
    cases x with
    | format => simp [OpenedAt]
    | rules other =>
      simp only [OpenedAt, mem_append, mem_singleton, Prod.mk.injEq, Subject.rules.injEq]
      constructor
      · rintro (h | ⟨rfl, rfl⟩)
        · exact .inl h
        · exact .inr ⟨rfl, rfl, hopen⟩
      · rintro (h | ⟨rfl, rfl, -⟩)
        · exact .inl h
        · exact .inr ⟨rfl, rfl⟩

theorem openedAt_foldl_openScope (scopes : List Scope) (regions : OpenRegions) (line : Nat)
    (x : Subject) (first : Nat) :
    (scopes.foldl (openScope · line) regions).OpenedAt x first ↔
      regions.OpenedAt x first ∨
        (first = line ∧ (∃ scope ∈ scopes, x = .rules scope) ∧ ¬ ∃ f, regions.OpenedAt x f) := by
  induction scopes generalizing regions with
  | nil => simp
  | cons scope scopes ih =>
    rw [foldl_cons, ih]
    simp only [openedAt_openScope, mem_cons]
    constructor
    · rintro ((h | ⟨rfl, rfl, hnone⟩) | ⟨rfl, ⟨other, hother, rfl⟩, hnone⟩)
      · exact .inl h
      · exact .inr ⟨rfl, ⟨scope, .inl rfl, rfl⟩, hnone⟩
      · exact .inr ⟨rfl, ⟨other, .inr hother, rfl⟩, fun ⟨f, hf⟩ => hnone ⟨f, .inl hf⟩⟩
    · rintro (h | ⟨rfl, ⟨other, hother, rfl⟩, hnone⟩)
      · exact .inl (.inl h)
      · by_cases heq : other = scope
        · exact .inl (.inr ⟨rfl, by rw [heq], hnone⟩)
        · have hmem : other ∈ scopes := hother.resolve_left heq
          refine .inr ⟨rfl, ⟨other, hmem, rfl⟩, ?_⟩
          rintro ⟨f, hf | ⟨-, hf, -⟩⟩
          · exact hnone ⟨f, hf⟩
          · exact heq (Subject.rules.inj hf)

theorem openedAt_disable (regions : OpenRegions) (line : Nat) (names : List String)
    (x : Subject) (first : Nat) :
    (regions.disable line names).OpenedAt x first ↔
      regions.OpenedAt x first ∨
        (first = line ∧ (Directive.disable names).Opens x ∧ ¬ ∃ f, regions.OpenedAt x f) := by
  rw [disable, openedAt_foldl_openScope]
  cases x <;> simp [Directive.Opens]

theorem openedAt_disableFormat (regions : OpenRegions) (line : Nat) (x : Subject) (first : Nat) :
    (regions.disableFormat line).OpenedAt x first ↔
      regions.OpenedAt x first ∨
        (first = line ∧ Directive.formatDisable.Opens x ∧ ¬ ∃ f, regions.OpenedAt x f) := by
  cases x with
  | rules scope => simp [disableFormat, OpenedAt, Directive.Opens]
  | format =>
    cases h : regions.format <;>
      simp [disableFormat, OpenedAt, Directive.Opens, h, eq_comm]

end OpenRegions

namespace DirectiveTable

open OpenRegions Directive

theorem covered_suppress (table : DirectiveTable) (scopes : List Scope)
    (range : LineRange) (x : Subject) (line : Nat) :
    (table.suppress scopes range).Covered x line ↔
      table.Covered x line ∨ (∃ scope ∈ scopes, x = .rules scope) ∧ range.contains line := by
  cases x with
  | format => simp [Covered, suppress]
  | rules scope =>
    simp only [Covered, suppress, mem_append, mem_map, Subject.rules.injEq]
    constructor
    · rintro ⟨s, hs | ⟨other, hother, rfl⟩, rfl, hline⟩
      · exact .inl ⟨s, hs, rfl, hline⟩
      · exact .inr ⟨⟨other, hother, rfl⟩, hline⟩
    · rintro (⟨s, hs, rfl, hline⟩ | ⟨⟨other, hother, rfl⟩, hline⟩)
      · exact ⟨s, .inl hs, rfl, hline⟩
      · exact ⟨⟨scope, range⟩, .inr ⟨scope, hother, rfl⟩, rfl, hline⟩

/-- Regions that are closed before a line cover the lines since they were opened. -/
theorem covered_foldl_suppress (entries : List (Scope × Nat)) (table : DirectiveTable) (stop : Nat)
    (x : Subject) (line : Nat) :
    (entries.foldl (fun table entry => table.suppress [entry.1] ⟨entry.2, stop⟩) table).Covered
        x line ↔
      table.Covered x line ∨
        ∃ entry ∈ entries, x = .rules entry.1 ∧ entry.2 ≤ line ∧ line < stop := by
  induction entries generalizing table with
  | nil => simp
  | cons entry entries ih =>
    rw [foldl_cons, ih, covered_suppress]
    simp [LineRange.contains_iff, or_assoc]

section Steps

variable (state : DirectiveTable × OpenRegions) (line : Nat) (x : Subject)

theorem covered_enable (names : List String) (m : Nat) :
    (enable state line names).1.Covered x m ↔
      state.1.Covered x m ∨
        (Directive.enable names).Closes x ∧ ∃ first, state.2.OpenedAt x first ∧ first ≤ m ∧
          m < line := by
  simp only [enable, partition_eq_filter_filter]
  rw [covered_foldl_suppress]
  cases x with
  | format => simp [Closes]
  | rules scope =>
    simp only [mem_filter, Subject.rules.injEq]
    constructor
    · rintro (h | ⟨⟨_, first⟩, ⟨hmem, hclose⟩, rfl, hrange⟩)
      · exact .inl h
      · exact .inr ⟨hclose, first, hmem, hrange⟩
    · rintro (h | ⟨hclose, first, hmem, hrange⟩)
      · exact .inl h
      · exact .inr ⟨(scope, first), ⟨hmem, hclose⟩, rfl, hrange⟩

theorem openedAt_enable (names : List String) (first : Nat) :
    (enable state line names).2.OpenedAt x first ↔
      state.2.OpenedAt x first ∧ ¬ (Directive.enable names).Closes x := by
  simp only [enable]
  cases x with
  | format => simp [OpenedAt, Closes]
  | rules scope => simp [OpenedAt, Closes]

theorem covered_enableFormat (m : Nat) :
    (enableFormat state line).1.Covered x m ↔
      state.1.Covered x m ∨
        formatEnable.Closes x ∧ ∃ first, state.2.OpenedAt x first ∧ first ≤ m ∧ m < line := by
  unfold enableFormat
  cases hformat : state.2.format with
  | none => cases x <;> simp [Closes, OpenedAt, hformat]
  | some first =>
    cases x with
    | rules scope => simp [Covered, Closes]
    | format =>
      simp [Covered, Closes, OpenedAt, hformat, LineRange.contains_iff]

theorem openedAt_enableFormat (first : Nat) :
    (enableFormat state line).2.OpenedAt x first ↔
      state.2.OpenedAt x first ∧ ¬ formatEnable.Closes x := by
  unfold enableFormat
  cases hformat : state.2.format with
  | none => cases x <;> simp [Closes, OpenedAt, hformat]
  | some first => cases x <;> simp [Closes, OpenedAt]

/-- What a directive does to the open regions. -/
theorem openedAt_apply (d : Directive) (first : Nat) :
    (apply state line d).2.OpenedAt x first ↔
      (state.2.OpenedAt x first ∧ ¬ d.Closes x) ∨
        (first = line ∧ d.Opens x ∧ ¬ ∃ f, state.2.OpenedAt x f) := by
  cases d with
  | disable names => simp [apply, openedAt_disable, Closes]
  | enable names => simp [apply, openedAt_enable, Opens]
  | disableNextLine _ | disableLine _ | declare _ _ => simp [apply, Closes, Opens]
  | formatDisable => simp [apply, openedAt_disableFormat, Closes]
  | formatEnable => simp [apply, openedAt_enableFormat, Opens]
  | disableAll names =>
    cases x <;> simp [apply, openedAt_disable, openedAt_disableFormat, Closes, Opens]
  | enableAll names =>
    cases x <;> simp [apply, openedAt_enable, openedAt_enableFormat, Closes, Opens]

theorem covered_declare (table : DirectiveTable) (contract : Contract) (name : String) (m : Nat) :
    (table.declare contract line name).Covered x m ↔ table.Covered x m := by
  unfold declare
  split
  · exact .rfl
  · cases x <;> exact .rfl

theorem covered_foldl_declare (names : List String) (table : DirectiveTable)
    (contract : Contract) (m : Nat) :
    (names.foldl (declare · contract line) table).Covered x m ↔ table.Covered x m :=
  foldlRecOn names _ .rfl fun table h name _ =>
    (covered_declare line x table contract name m).trans h

/-- What a directive does to the table. -/
theorem covered_apply (d : Directive) (m : Nat) :
    (apply state line d).1.Covered x m ↔
      state.1.Covered x m ∨
        (d.Closes x ∧ ∃ first, state.2.OpenedAt x first ∧ first ≤ m ∧ m < line) ∨
        (d.HidesLine x ∧ m = line) ∨ (d.HidesNextLine x ∧ m = line + 1) := by
  cases d with
  | disable _ | formatDisable | disableAll _ => simp [apply, Closes, HidesLine, HidesNextLine]
  | enable names => simp [apply, covered_enable, HidesLine, HidesNextLine]
  | disableNextLine _ | disableLine _ =>
    cases x <;>
      simp [apply, covered_suppress, Closes, HidesLine, HidesNextLine, LineRange.contains_single]
  | formatEnable => simp [apply, covered_enableFormat, HidesLine, HidesNextLine]
  | enableAll names =>
    cases x <;>
      simp [apply, covered_enable, covered_enableFormat, openedAt_enableFormat,
        Closes, HidesLine, HidesNextLine]
  | declare contract names =>
    simp [apply, covered_foldl_declare, Closes, HidesLine, HidesNextLine]

end Steps

end DirectiveTable

namespace LineState

open Directive

theorem isOpen_disable (s : LineState) (names : List String) (x : Subject) :
    (s.disable names).IsOpen x ↔ s.IsOpen x ∨ (Directive.disable names).Opens x := by
  unfold LineState.disable
  cases names <;> rcases x with (_ | _) | _ <;> simp [IsOpen, Opens, Scope.ofRules]

theorem isOpen_enable (s : LineState) (names : List String) (x : Subject) :
    (s.enable names).IsOpen x ↔ s.IsOpen x ∧ ¬ (Directive.enable names).Closes x := by
  unfold LineState.enable
  cases names <;> rcases x with (_ | _) | _ <;> simp [IsOpen, Closes, OpenRegions.isEnabled]

theorem isOpen_rules_format (s : LineState) (format : Bool) (scope : Scope) :
    { s with format := format }.IsOpen (.rules scope) ↔ s.IsOpen (.rules scope) := by
  cases scope <;> exact .rfl

/-- What a directive does to the state. -/
theorem isOpen_step (s : LineState) (d : Directive) (x : Subject) :
    (s.step d).IsOpen x ↔ (s.IsOpen x ∧ ¬ d.Closes x) ∨ d.Opens x := by
  cases d with
  | disable names => simp [step, isOpen_disable, Closes]
  | enable names => simp [step, isOpen_enable, Opens]
  | disableNextLine _ | disableLine _ | declare _ _ => simp [step, Closes, Opens]
  | formatDisable =>
    cases x with
    | rules scope => simp [step, isOpen_rules_format, Closes, Opens]
    | format => simp [step, IsOpen, Opens]
  | formatEnable =>
    cases x with
    | rules scope => simp [step, isOpen_rules_format, Closes, Opens]
    | format => simp [step, IsOpen, Closes, Opens]
  | disableAll names =>
    cases x with
    | rules scope => simp [step, isOpen_rules_format, isOpen_disable, Closes, Opens]
    | format => simp [step, IsOpen, Opens]
  | enableAll names =>
    cases x with
    | rules scope => simp [step, isOpen_rules_format, isOpen_enable, Closes, Opens]
    | format => simp [step, IsOpen, Closes, Opens]

end LineState

namespace DirectiveTable

open Directive

/-- The open regions are those of the state, and were opened before a line. -/
structure Tracks (regions : OpenRegions) (s : LineState) (line : Nat) : Prop where
  isOpen : ∀ x, (∃ first, regions.OpenedAt x first) ↔ s.IsOpen x
  before : ∀ x first, regions.OpenedAt x first → first < line

theorem tracks_none : Tracks OpenRegions.none LineState.closed 1 where
  isOpen x := by
    rcases x with (_ | _) | _ <;>
      simp [OpenRegions.OpenedAt, OpenRegions.none, LineState.IsOpen, LineState.closed]
  before x first h := by
    cases x <;> simp [OpenRegions.OpenedAt, OpenRegions.none] at h

section Lines

variable {regions : OpenRegions} {s : LineState} {line : Nat}

theorem Tracks.succ (h : Tracks regions s line) : Tracks regions s (line + 1) :=
  ⟨h.isOpen, fun x first hfirst => Nat.lt_succ_of_lt (h.before x first hfirst)⟩

/-- A directive changes the regions as it changes the state. -/
theorem Tracks.apply (h : Tracks regions s line) (table : DirectiveTable) (d : Directive) :
    Tracks (apply (table, regions) line d).2 (s.step d) (line + 1) where
  isOpen x := by
    rw [LineState.isOpen_step, ← h.isOpen]
    simp only [openedAt_apply]
    constructor
    · rintro ⟨first, ⟨hopen, hclose⟩ | ⟨-, hopens, -⟩⟩
      · exact .inl ⟨⟨first, hopen⟩, hclose⟩
      · exact .inr hopens
    · rintro (⟨⟨first, hopen⟩, hclose⟩ | hopens)
      · exact ⟨first, .inl ⟨hopen, hclose⟩⟩
      · by_cases hopen : ∃ first, regions.OpenedAt x first
        · obtain ⟨first, hfirst⟩ := hopen
          refine ⟨first, .inl ⟨hfirst, ?_⟩⟩
          cases d <;> cases x <;> simp_all [Opens, Closes]
        · exact ⟨line, .inr ⟨rfl, hopens, hopen⟩⟩
  before x first hfirst := by
    rw [openedAt_apply] at hfirst
    rcases hfirst with ⟨hopen, -⟩ | ⟨rfl, -, -⟩
    · exact Nat.lt_succ_of_lt (h.before x first hopen)
    · exact Nat.lt_succ_self _

/-- The table with what the open regions cover up to a line. -/
def CoveredUpTo (table : DirectiveTable) (regions : OpenRegions) (line : Nat) (x : Subject)
    (m : Nat) : Prop :=
  table.Covered x m ∨ ∃ first, regions.OpenedAt x first ∧ first ≤ m ∧ m < line

/-- Nothing is said on a line: what was open before it covers it. -/
theorem coveredUpTo_succ (h : Tracks regions s line) (x : Subject) (m : Nat) :
    CoveredUpTo table regions (line + 1) x m ↔
      CoveredUpTo table regions line x m ∨ m = line ∧ s.IsOpen x := by
  rw [← h.isOpen]
  constructor
  · rintro (hcovered | ⟨first, hfirst, hle, hlt⟩)
    · exact .inl (.inl hcovered)
    · by_cases hm : m = line
      · exact .inr ⟨hm, first, hfirst⟩
      · exact .inl (.inr ⟨first, hfirst, hle, by omega⟩)
  · rintro ((hcovered | ⟨first, hfirst, hle, hlt⟩) | ⟨rfl, first, hfirst⟩)
    · exact .inl hcovered
    · exact .inr ⟨first, hfirst, hle, by omega⟩
    · have hbefore := h.before x first hfirst
      exact .inr ⟨first, hfirst, by omega, by omega⟩

/-- What is closed on a line stays covered up to it; what is open after the line covers it. -/
theorem coveredUpTo_apply (h : Tracks regions s line) (d : Directive) (x : Subject) (m : Nat) :
    CoveredUpTo (apply (table, regions) line d).1 (apply (table, regions) line d).2 (line + 1) x m ↔
      CoveredUpTo table regions line x m ∨ (m = line ∧ (s.step d).IsOpen x) ∨
        (d.HidesLine x ∧ m = line) ∨ (d.HidesNextLine x ∧ m = line + 1) := by
  have htracks := h.apply table d
  unfold CoveredUpTo
  rw [covered_apply]
  constructor
  · rintro ((hcovered | ⟨-, hregion⟩ | hhides) | ⟨first, hfirst, hle, hlt⟩)
    · exact .inl (.inl hcovered)
    · exact .inl (.inr hregion)
    · exact .inr (.inr hhides)
    · by_cases hm : m = line
      · exact .inr (.inl ⟨hm, (htracks.isOpen x).1 ⟨first, hfirst⟩⟩)
      · rcases (openedAt_apply _ _ _ _ _).1 hfirst with ⟨hopen, -⟩ | ⟨rfl, -, -⟩
        · exact .inl (.inr ⟨first, hopen, hle, by omega⟩)
        · omega
  · rintro ((hcovered | ⟨first, hfirst, hle, hlt⟩) | ⟨rfl, hopen⟩ | hhides)
    · exact .inl (.inl hcovered)
    · by_cases hclose : d.Closes x
      · exact .inl (.inr (.inl ⟨hclose, first, hfirst, hle, hlt⟩))
      · have hstill := (openedAt_apply (table, regions) line x d first).2 (.inl ⟨hfirst, hclose⟩)
        exact .inr ⟨first, hstill, hle, by omega⟩
    · obtain ⟨first, hfirst⟩ := (htracks.isOpen x).2 hopen
      have hbefore := htracks.before x first hfirst
      exact .inr ⟨first, hfirst, by omega, by omega⟩
    · exact .inl (.inr (.inr hhides))

/-- The subject is turned off in the state after a line, where the first of the lines has the number
`line` and `s` is the state before it. -/
def OpenAfter (line : Nat) (lines : List Line) (s : LineState) (x : Subject) (m : Nat) :
    Prop :=
  line ≤ m ∧ m < line + lines.length ∧
    ((lines.take (m + 1 - line)).foldl LineState.stepLine s).IsOpen x

theorem openAfter_cons (l : Line) (lines : List Line) (x : Subject) (m : Nat) :
    OpenAfter line (l :: lines) s x m ↔
      (m = line ∧ (s.stepLine l).IsOpen x) ∨
        OpenAfter (line + 1) lines (s.stepLine l) x m := by
  unfold OpenAfter
  rcases Nat.lt_trichotomy m line with hlt | rfl | hgt
  · constructor
    · omega
    · rintro (⟨heq, -⟩ | ⟨hle, -⟩) <;> omega
  · have htake : m + 1 - m = 1 := by omega
    simp [htake]
  · have htake : m + 1 - line = m + 1 - (line + 1) + 1 := by omega
    have hne : m ≠ line := by omega
    have hbound : m < line + (lines.length + 1) ↔ m < line + 1 + lines.length := by omega
    have hlow : line ≤ m ↔ line + 1 ≤ m := by omega
    rw [htake, length_cons, hbound, hlow]
    simp [hne]

theorem openAfter_one (lines : List Line) (x : Subject) (m : Nat) :
    OpenAfter 1 lines .closed x m ↔
      m ≤ lines.length ∧ (LineState.after (lines.take m)).IsOpen x := by
  unfold OpenAfter LineState.after
  cases m with
  | zero => rcases x with (_ | _) | _ <;> simp [LineState.IsOpen, LineState.closed]
  | succ m =>
    have hbound : m + 1 < 1 + lines.length ↔ m + 1 ≤ lines.length := by omega
    simp [hbound]

/-- What the directives of lines do to the table, whatever is open before them. -/
theorem covered_applyLines (h : Tracks regions s line) (hline : 1 ≤ line)
    (lines : List Line) (x : Subject) (m : Nat) :
    (applyLines line (table, regions) lines).1.Covered x m ↔
      CoveredUpTo table regions line x m ∨ OpenAfter line lines s x m ∨
        (∃ d ∈ onLine? line lines m, d.HidesLine x) ∨
        (∃ d ∈ onLine? line lines (m - 1), d.HidesNextLine x) := by
  induction lines generalizing line table regions s with
  | nil =>
    have hclose : ∀ scope, OpenRegions.isEnabled [] scope := by
      intro scope
      cases scope <;> rfl
    cases x <;>
      simp [applyLines, covered_enable, covered_enableFormat, openedAt_enableFormat, Closes,
        hclose, CoveredUpTo, OpenAfter, onLine?] <;> omega
  | cons l lines ih =>
    rw [openAfter_cons, exists_onLine?_cons, exists_onLine?_cons, applyLines]
    cases hd : ofLine? l.content with
    | none =>
      have hstate : s.stepLine l = s := by simp [LineState.stepLine, hd]
      rw [hstate, ih h.succ (by omega), coveredUpTo_succ h]
      simp [or_assoc]
    | some d =>
      have hstate : s.stepLine l = s.step d := by simp [LineState.stepLine, hd]
      rw [ih (h.apply table d) (by omega), coveredUpTo_apply h]
      grind

end Lines

section Declarations

variable (state : DirectiveTable × OpenRegions) (line : Nat)

theorem declarations_enable (names : List String) :
    (enable state line names).1.declarations = state.1.declarations :=
  foldlRecOn (motive := (declarations · = state.1.declarations)) _ _ rfl fun _ h _ _ => h

theorem declarations_enableFormat :
    (enableFormat state line).1.declarations = state.1.declarations := by
  unfold enableFormat
  split <;> rfl

/-- A name is declared in a contract. -/
def IsDeclared (table : DirectiveTable) (contract : Contract) (name : String) : Prop :=
  ∃ d ∈ table.declarations, d.contract = contract ∧ d.name = name

theorem declares_iff (table : DirectiveTable) (contract : Contract) (name : String) :
    table.declares contract name ↔ table.IsDeclared contract name := by
  simp [declares, DirectiveTable.contract, IsDeclared]

/-- No name is declared twice in a contract. -/
def Functional (table : DirectiveTable) : Prop :=
  table.declarations.Pairwise fun a b => ¬ (a.contract = b.contract ∧ a.name = b.name)

theorem mem_declarations_declare (table : DirectiveTable) (contract : Contract) (line : Nat)
    (name : String) (x : Declaration) :
    x ∈ (table.declare contract line name).declarations ↔
      x ∈ table.declarations ∨
        (x = ⟨contract, name, line⟩ ∧ ¬ table.IsDeclared contract name) := by
  unfold declare
  by_cases h : table.declares contract name
  · have hdeclared := (declares_iff table contract name).1 h
    simp [h, hdeclared]
  · have hdeclared : ¬ table.IsDeclared contract name := by rwa [← declares_iff]
    simp [h, hdeclared]

theorem Functional.declare (h : table.Functional) (contract : Contract)
    (line : Nat) (name : String) : (table.declare contract line name).Functional := by
  unfold DirectiveTable.declare
  split
  · exact h
  · next hnew =>
    rw [declares_iff] at hnew
    refine pairwise_append.2 ⟨h, pairwise_singleton _ _, ?_⟩
    rintro a ha b hb ⟨hcontract, hname⟩
    obtain rfl := mem_singleton.1 hb
    exact hnew ⟨a, ha, hcontract, hname⟩

theorem isDeclared_declare (table : DirectiveTable) (contract : Contract)
    (line : Nat) (name other : String) :
    (table.declare contract line name).IsDeclared contract other ↔
      table.IsDeclared contract other ∨ other = name := by
  unfold IsDeclared
  simp only [mem_declarations_declare]
  constructor
  · rintro ⟨d, hd | ⟨rfl, -⟩, hcontract, hname⟩
    · exact .inl ⟨d, hd, hcontract, hname⟩
    · exact .inr hname.symm
  · rintro (⟨d, hd, hcontract, hname⟩ | rfl)
    · exact ⟨d, .inl hd, hcontract, hname⟩
    · by_cases h : table.IsDeclared contract other
      · obtain ⟨d, hd, hcontract, hname⟩ := h
        exact ⟨d, .inl hd, hcontract, hname⟩
      · exact ⟨⟨contract, other, line⟩, .inr ⟨rfl, h⟩, rfl, rfl⟩

/-- Declaring names adds those that are new to the contract. -/
theorem mem_declarations_foldl (names : List String) (table : DirectiveTable) (contract : Contract)
    (line : Nat) (x : Declaration) :
    x ∈ (names.foldl (declare · contract line) table).declarations ↔
      x ∈ table.declarations ∨
        (x.contract = contract ∧ x.name ∈ names ∧ x.line = line ∧
          ¬ table.IsDeclared contract x.name) := by
  induction names generalizing table with
  | nil => simp
  | cons name names ih =>
    rw [foldl_cons, ih, mem_declarations_declare, isDeclared_declare, mem_cons]
    obtain ⟨xcontract, xname, xline⟩ := x
    simp only [Declaration.mk.injEq]
    constructor
    · rintro ((hx | ⟨⟨rfl, rfl, rfl⟩, hnew⟩) | ⟨rfl, hname, rfl, hnew⟩)
      · exact .inl hx
      · exact .inr ⟨rfl, .inl rfl, rfl, hnew⟩
      · exact .inr ⟨rfl, .inr hname, rfl, fun h => hnew (.inl h)⟩
    · rintro (hx | ⟨rfl, hname, rfl, hnew⟩)
      · exact .inl (.inl hx)
      · by_cases heq : xname = name
        · subst heq
          exact .inl (.inr ⟨⟨rfl, rfl, rfl⟩, hnew⟩)
        · exact .inr ⟨rfl, hname.resolve_left heq, rfl, not_or.2 ⟨hnew, heq⟩⟩

/-- A directive declares names, or keeps the declarations. -/
theorem declares_or_keeps (d : Directive) :
    (∃ contract names, d = .declare contract names) ∨
      (apply state line d).1.declarations = state.1.declarations ∧
        ∀ contract name, ¬ d.Declares contract name := by
  cases d with
  | declare contract names => exact .inl ⟨contract, names, rfl⟩
  | enable names => exact .inr ⟨declarations_enable state line names, fun _ _ => id⟩
  | formatEnable => exact .inr ⟨declarations_enableFormat state line, fun _ _ => id⟩
  | enableAll names =>
    refine .inr ⟨?_, fun _ _ => id⟩
    exact (declarations_enable _ line names).trans (declarations_enableFormat state line)
  | _ => exact .inr ⟨rfl, fun _ _ => id⟩

/-- What a directive does to the declarations. -/
theorem mem_declarations_apply (d : Directive) (x : Declaration) :
    x ∈ (apply state line d).1.declarations ↔
      x ∈ state.1.declarations ∨
        (d.Declares x.contract x.name ∧ x.line = line ∧
          ¬ state.1.IsDeclared x.contract x.name) := by
  rcases declares_or_keeps state line d with ⟨contract, names, rfl⟩ | ⟨hsame, hnone⟩
  · simp only [apply, mem_declarations_foldl, Declares]
    grind
  · simp [hsame, hnone]

theorem isDeclared_apply (d : Directive) (contract : Contract) (name : String) :
    (apply state line d).1.IsDeclared contract name ↔
      state.1.IsDeclared contract name ∨ d.Declares contract name := by
  constructor
  · rintro ⟨x, hx, rfl, rfl⟩
    rcases (mem_declarations_apply state line d x).1 hx with hx | ⟨hd, -, -⟩
    · exact .inl ⟨x, hx, rfl, rfl⟩
    · exact .inr hd
  · intro h
    by_cases hold : state.1.IsDeclared contract name
    · obtain ⟨x, hx, hcontract, hname⟩ := hold
      exact ⟨x, (mem_declarations_apply state line d x).2 (.inl hx), hcontract, hname⟩
    · have hnew := (mem_declarations_apply state line d ⟨contract, name, line⟩).2
        (.inr ⟨h.resolve_left hold, rfl, hold⟩)
      exact ⟨_, hnew, rfl, rfl⟩

end Declarations

theorem Functional.apply {state : DirectiveTable × OpenRegions} (h : state.1.Functional)
    (line : Nat) (d : Directive) : (apply state line d).1.Functional := by
  rcases declares_or_keeps state line d with ⟨contract, names, rfl⟩ | ⟨hsame, -⟩
  · exact foldlRecOn names _ h fun _ htable name _ => htable.declare contract line name
  · rwa [Functional, hsame]

theorem declarations_applyLines_nil (line : Nat) (state : DirectiveTable × OpenRegions) :
    (applyLines line state []).1.declarations = state.1.declarations :=
  (declarations_enable _ line []).trans (declarations_enableFormat state line)

/-- The declarations of lines are the first ones of each name. -/
theorem mem_declarations_applyLines (lines : List Line) (line : Nat)
    (state : DirectiveTable × OpenRegions) (x : Declaration) :
    x ∈ (applyLines line state lines).1.declarations ↔
      x ∈ state.1.declarations ∨
        (¬ state.1.IsDeclared x.contract x.name ∧
          FirstDeclaredOn line lines x.contract x.name x.line) := by
  induction lines generalizing line state with
  | nil => simp [declarations_applyLines_nil, FirstDeclaredOn, onLine?]
  | cons l lines ih =>
    rw [firstDeclaredOn_cons, applyLines]
    cases hd : ofLine? l.content with
    | none =>
      rw [ih]
      simp
    | some d =>
      rw [ih, mem_declarations_apply, isDeclared_apply]
      grind

theorem functional_applyLines (lines : List Line) (line : Nat)
    {state : DirectiveTable × OpenRegions} (h : state.1.Functional) :
    (applyLines line state lines).1.Functional := by
  induction lines generalizing line state with
  | nil =>
    rw [Functional, declarations_applyLines_nil]
    exact h
  | cons l lines ih =>
    rw [applyLines]
    cases ofLine? l.content with
    | none => exact ih _ h
    | some d => exact ih _ (h.apply line d)

theorem mem_contract {contract : Contract} {name : String} {line : Nat} :
    ⟨contract, name, line⟩ ∈ table.contract contract ↔
      ⟨contract, name, line⟩ ∈ table.declarations := by
  simp [DirectiveTable.contract]

theorem nodup_contract (h : table.Functional) (contract : Contract) :
    ((table.contract contract).map Declaration.name).Nodup := by
  refine pairwise_map.2 (pairwise_filter.2 (h.imp ?_))
  intro a b hne ha hb hname
  have ha' : a.contract = contract := by simpa using ha
  have hb' : b.contract = contract := by simpa using hb
  exact hne ⟨ha'.trans hb'.symm, hname⟩

theorem isSuppressed_iff (table : DirectiveTable) (line : Nat) (rule : String) :
    table.isSuppressed line rule ↔
      table.Covered (.rules .all) line ∨ table.Covered (.rules (.rule rule)) line := by
  simp only [isSuppressed, any_eq_true, Bool.and_eq_true]
  constructor
  · rintro ⟨⟨scope, range⟩, hs, hline, hcovers⟩
    cases scope with
    | all => exact .inl ⟨_, hs, rfl, hline⟩
    | rule name =>
      obtain rfl : name = rule := by simpa [Scope.covers] using hcovers
      exact .inr ⟨_, hs, rfl, hline⟩
  · rintro (⟨⟨scope, range⟩, hs, rfl, hline⟩ | ⟨⟨scope, range⟩, hs, rfl, hline⟩)
    · exact ⟨_, hs, hline, rfl⟩
    · exact ⟨_, hs, hline, by simp [Scope.covers]⟩

theorem isFormatSuppressed_iff (table : DirectiveTable) (line : Nat) :
    table.isFormatSuppressed line ↔ table.Covered .format line := by
  simp [isFormatSuppressed, Covered]

theorem all_mem_ofRules {names : List String} : Scope.all ∈ Scope.ofRules names ↔ names = [] := by
  cases names <;> simp [Scope.ofRules]

theorem rule_mem_ofRules {names : List String} {rule : String} :
    Scope.rule rule ∈ Scope.ofRules names ↔ rule ∈ names := by
  cases names <;> simp [Scope.ofRules]

theorem hidesLine_iff (d : Directive) (rule : String) :
    d.HidesLine (.rules .all) ∨ d.HidesLine (.rules (.rule rule)) ↔
      ∃ names, d = .disableLine names ∧ (names = [] ∨ rule ∈ names) := by
  cases d <;> simp [HidesLine, all_mem_ofRules, rule_mem_ofRules]

theorem hidesNextLine_iff (d : Directive) (rule : String) :
    d.HidesNextLine (.rules .all) ∨ d.HidesNextLine (.rules (.rule rule)) ↔
      ∃ names, d = .disableNextLine names ∧ (names = [] ∨ rule ∈ names) := by
  cases d <;> simp [HidesNextLine, all_mem_ofRules, rule_mem_ofRules]

theorem not_hidesLine_format (d : Directive) : d.HidesLine .format ↔ False := by
  cases d <;> simp [HidesLine]

theorem not_hidesNextLine_format (d : Directive) : d.HidesNextLine .format ↔ False := by
  cases d <;> simp [HidesNextLine]

/-- The table of a source, by subject. -/
theorem covered_ofSource (source : String) (x : Subject) (line : Nat) :
    (ofSource source).Covered x line ↔
      (line ≤ (lines (withoutMark source.toList)).length ∧
        (LineState.after ((lines (withoutMark source.toList)).take line)).IsOpen x) ∨
      (∃ d ∈ onLine? 1 (lines (withoutMark source.toList)) line, d.HidesLine x) ∨
      (∃ d ∈ onLine? 1 (lines (withoutMark source.toList)) (line - 1), d.HidesNextLine x) := by
  have hempty : ¬ CoveredUpTo empty OpenRegions.none 1 x line := by
    cases x <;> simp [CoveredUpTo, Covered, empty, OpenRegions.OpenedAt, OpenRegions.none]
  rw [ofSource, covered_applyLines tracks_none (Nat.le_refl 1), openAfter_one]
  simp only [hempty, false_or]

end DirectiveTable

/-- What is turned off on one line. -/
inductive LineSuppression where
  | all
  | rules (names : List String)

namespace LineSuppression

/-- A rule is turned off. -/
def suppresses : LineSuppression → String → Bool
  | all, _ => true
  | rules names, rule => names.contains rule

/-- What a scope turns off. -/
def ofScope : Scope → LineSuppression
  | .all => all
  | .rule name => rules [name]

/-- What is turned off by one or the other. -/
def merge : LineSuppression → LineSuppression → LineSuppression
  | rules names, rules more => rules (names ++ more)
  | _, _ => all

theorem suppresses_merge (old new : LineSuppression) (rule : String) :
    (old.merge new).suppresses rule = (old.suppresses rule || new.suppresses rule) := by
  cases old <;> cases new <;> simp [merge, suppresses]

theorem suppresses_ofScope (scope : Scope) (rule : String) :
    (ofScope scope).suppresses rule = scope.covers rule := by
  cases scope with
  | all => rfl
  | rule name =>
    rw [Bool.eq_iff_iff]
    simpa [ofScope, suppresses, Scope.covers] using eq_comm

end LineSuppression

/-- One more suppression, merged into each of its lines. -/
def Suppression.mergeInto (lines : Nat → Option LineSuppression) (s : Suppression) :
    Nat → Option LineSuppression := fun line =>
  if s.lines.contains line then
    some ((lines line).elim (.ofScope s.scope) (·.merge (.ofScope s.scope)))
  else lines line

/-- One suppression after another is merged into what a line has so far. -/
theorem Suppression.suppresses_foldl_mergeInto (ss : List Suppression)
    (lines : Nat → Option LineSuppression) (line : Nat) (rule : String) :
    ((ss.foldl mergeInto lines) line).any (·.suppresses rule) =
      ((lines line).any (·.suppresses rule) ||
        ss.any fun s => s.lines.contains line && s.scope.covers rule) := by
  induction ss generalizing lines with
  | nil => exact (Bool.or_false _).symm
  | cons s ss ih =>
    rw [foldl_cons, ih, any_cons, ← Bool.or_assoc, mergeInto]
    cases hline : s.lines.contains line with
    | false => simp
    | true =>
      cases lines line <;>
        simp [LineSuppression.suppresses_merge, LineSuppression.suppresses_ofScope]

/-- Merged line by line, the suppressions of a table turn off what any of them does. -/
theorem DirectiveTable.isSuppressed_eq_merged (table : DirectiveTable)
    (line : Nat) (rule : String) :
    table.isSuppressed line rule =
      ((table.suppressions.foldl Suppression.mergeInto fun _ => none) line).any
        (·.suppresses rule) :=
  (Suppression.suppresses_foldl_mergeInto table.suppressions (fun _ => none) line rule).symm

open Directive in
/-- **The table of directives is the reading of the lines.**  Rules, and formatting, are turned off
on a line when they are turned off in the state after it, where the state is changed by one line
after the other; a directive for a single line turns rules off on its own line or on the next one.
The declarations of a contract name each variable once, with the first line that declares it. -/
theorem ofSource_reads_lines (source : String) :
    let lines := Text.lines (Text.withoutMark source.toList)
    let table := DirectiveTable.ofSource source
    (∀ line rule, table.isSuppressed line rule ↔
      (line ≤ lines.length ∧
        ((LineState.after (lines.take line)).all ∨
          rule ∈ (LineState.after (lines.take line)).rules)) ∨
      (∃ names, onLine? 1 lines line = some (.disableLine names) ∧
        (names = [] ∨ rule ∈ names)) ∨
      (∃ names, onLine? 1 lines (line - 1) = some (.disableNextLine names) ∧
        (names = [] ∨ rule ∈ names))) ∧
    (∀ line, table.isFormatSuppressed line ↔
      line ≤ lines.length ∧ (LineState.after (lines.take line)).format) ∧
    ∀ contract, ((table.contract contract).map Declaration.name).Nodup ∧
      ∀ name line, ⟨contract, name, line⟩ ∈ table.contract contract ↔
        FirstDeclaredOn 1 lines contract name line := by
  intro lines table
  refine ⟨?_, ?_, ?_⟩
  · intro line rule
    have hline : (∃ d ∈ onLine? 1 lines line,
        d.HidesLine (.rules .all) ∨ d.HidesLine (.rules (.rule rule))) ↔
        ∃ names, onLine? 1 lines line = some (.disableLine names) ∧
          (names = [] ∨ rule ∈ names) := by
      simp only [hidesLine_iff, Option.mem_def]
      grind
    have hnext : (∃ d ∈ onLine? 1 lines (line - 1),
        d.HidesNextLine (.rules .all) ∨ d.HidesNextLine (.rules (.rule rule))) ↔
        ∃ names, onLine? 1 lines (line - 1) = some (.disableNextLine names) ∧
          (names = [] ∨ rule ∈ names) := by
      simp only [hidesNextLine_iff, Option.mem_def]
      grind
    rw [isSuppressed_iff, covered_ofSource,
      covered_ofSource, ← hline, ← hnext]
    simp only [and_or_left, exists_or]
    grind [LineState.IsOpen]
  · intro line
    rw [isFormatSuppressed_iff, covered_ofSource]
    simp only [not_hidesLine_format, not_hidesNextLine_format,
      and_false, exists_false, or_false]
    exact .rfl
  · intro contract
    have hempty : (empty, OpenRegions.none).1.Functional := .nil
    refine ⟨nodup_contract
      (functional_applyLines lines 1 hempty) contract, ?_⟩
    intro name line
    refine mem_contract.trans
      ((mem_declarations_applyLines lines 1 _ _).trans ?_)
    simp [empty, IsDeclared]

end ScriptLint
