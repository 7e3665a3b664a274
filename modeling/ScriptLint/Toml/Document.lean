import ScriptLint.Toml.Scalar

/-!
# Reading a settings document

**Input.** Lines that hold a key and a value, the header of a table, or the header of an element of
an array of tables; comments may stand at the end of every line.

**Tables.** Headers and keys with points create the tables on their way.  A table may be opened by a
header once, and a table made by a key with points is closed to headers of its own name and open to
further keys with points only where such a key made it.

**Result.** The entries of the root table, or nothing if the document is at fault.
-/

namespace ScriptLint
namespace Toml

open Reader

/-- What stands under a key while a document is being read. -/
inductive Item where
  /-- A finished value. -/
  | value (value : Value)
  /-- A table; no header names an implicit one, and a key with points made a dotted one. -/
  | table (implicit dotted : Bool) (items : List (String × Item))
  /-- The elements of an array of tables. -/
  | tables (elements : List (List (String × Item)))

/-- Items by key. -/
abbrev Items := List (String × Item)

namespace Items

/-- Puts an item under a key, in place of the one that is there. -/
def set (items : Items) (key : String) (item : Item) : Items :=
  if items.any (·.1 == key) then
    items.map fun entry => if entry.1 == key then (key, item) else entry
  else
    items ++ [(key, item)]

/-- Changes the last of the elements of an array of tables. -/
def changeLast (change : Items → Option Items) : List Items → Option (List Items)
  | [] => none
  | [last] => (change last).map ([·])
  | first :: rest => (changeLast change rest).map (first :: ·)

/-- Puts a value under a key with points.  The table that holds it must be `open`: the one that the
key starts from, or one that a key with points made. -/
def insert (value : Value) : (isOpen : Bool) → List String → Items → Option Items
  | _, [], _ => none
  | isOpen, [name], items =>
    if isOpen && !items.any (·.1 == name) then some (items ++ [(name, .value value)]) else none
  | _, name :: rest, items =>
    match items.lookup name with
    | none => (insert value true rest []).map fun inner => items ++ [(name, .table true true inner)]
    | some (.value _) => none
    | some (.tables elements) =>
      (changeLast (insert value false rest) elements).map fun elements =>
        items.set name (.tables elements)
    | some (.table implicit dotted inner) =>
      if implicit then
        (insert value dotted rest inner).map fun inner =>
          items.set name (.table implicit dotted inner)
      else
        none

/-- Changes what stands under the key of a header; tables on the way are made if they are
missing. -/
def change (update : Option Item → Option Item) : List String → Items → Option Items
  | [], _ => none
  | [name], items => (update (items.lookup name)).map (items.set name)
  | name :: rest, items =>
    match items.lookup name with
    | none => (change update rest []).map fun inner => items ++ [(name, .table true false inner)]
    | some (.value _) => none
    | some (.tables elements) =>
      (changeLast (change update rest) elements).map fun elements =>
        items.set name (.tables elements)
    | some (.table implicit dotted inner) =>
      (change update rest inner).map fun inner => items.set name (.table implicit dotted inner)

end Items

namespace Item

/-- Opens a table by its header. -/
def openTable : Option Item → Option Item
  | none => some (.table false false [])
  | some (.table true false items) => some (.table false false items)
  | _ => none

/-- Opens one more element of an array of tables. -/
def openElement : Option Item → Option Item
  | none => some (.tables [[]])
  | some (.tables elements) => some (.tables (elements ++ [[]]))
  | _ => none

/-- Puts a value under a key with points inside the open table. -/
def insertInto (key : List String) (value : Value) : Option Item → Option Item
  | some (.table implicit dotted items) =>
    (Items.insert value true key items).map (.table implicit dotted)
  | some (.tables elements) =>
    (Items.changeLast (Items.insert value true key) elements).map .tables
  | _ => none

mutual

def toValue : Item → Value
  | .value v => v
  | .table _ _ items => .table (toEntries items)
  | .tables elements => .array (toTables elements)

def toEntries : List (String × Item) → List (String × Value)
  | [] => []
  | (key, item) :: rest => (key, toValue item) :: toEntries rest

def toTables : List (List (String × Item)) → List Value
  | [] => []
  | items :: rest => .table (toEntries items) :: toTables rest

end

end Item

/-- White space, line endings and comments between the values of an array. -/
def filler : Reader Unit := do
  let _ ← many (firstOf [do let _ ← takeSome Text.isGap; return (), newline, comment])
  return ()

/-- A key with its value. -/
def pair (value : Reader Value) : Reader (List String × Value) := do
  let key ← key
  exactly ['=']
  gap
  let value ← value
  gap
  return (key, value)

def array (value : Reader Value) : Reader Value := do
  exactly ['[']
  let values ← separated (do filler; let v ← value; filler; return v) (exactly [','])
  if !values.isEmpty then
    let _ ← optional (exactly [','])
  filler
  exactly [']']
  return .array values

/-- A table on one line. -/
def inlineTable (value : Reader Value) : Reader Value := do
  exactly ['{']
  let pairs ← separated (pair value) (exactly [','])
  gap
  exactly ['}']
  let items ← ofOption
    (pairs.foldlM (fun items entry => Items.insert entry.2 true entry.1 items) ([] : Items))
  return .table (Item.toEntries items)

/-- A value, with a number of levels left for arrays and tables inside it. -/
def value : (levels : Nat) → Reader Value
  | 0 => scalar
  | levels + 1 =>
    fun cs =>
      match cs with
      | '[' :: _ => array (value levels) cs
      | '{' :: _ => inlineTable (value levels) cs
      | _ => scalar cs

/-- A line of a document. -/
inductive Entry where
  | blank
  | tableHeader (key : List String)
  | elementHeader (key : List String)
  | assignment (key : List String) (value : Value)

def entry : Reader Entry :=
  firstOf
    [do
      gap
      newline
      return .blank,
     do
      gap
      comment
      orElse newline atEnd
      return .blank,
     do
      gap
      exactly ['[', '[']
      let key ← key
      exactly [']', ']']
      lineEnd
      return .elementHeader key,
     do
      gap
      exactly ['[']
      let key ← key
      exactly [']']
      lineEnd
      return .tableHeader key,
     do
      let (key, value) ← pair (value (nestingLimit - 1))
      lineEnd
      return .assignment key value]

/-- The lines of a whole document. -/
def entries : Reader (List Entry) := do
  let _ ← optional (exactly [Char.ofNat 0xFEFF])
  let entries ← many entry
  gap
  atEnd
  return entries

/-- A document being read: its items and the key of the open header. -/
structure Draft where
  items : Items
  header : List String

/-- The effect of a line. -/
def Draft.add (draft : Draft) : Entry → Option Draft
  | .blank => some draft
  | .tableHeader key => (draft.items.change Item.openTable key).map (⟨·, key⟩)
  | .elementHeader key => (draft.items.change Item.openElement key).map (⟨·, key⟩)
  | .assignment key value =>
    let items :=
      if draft.header.isEmpty then Items.insert value true key draft.items
      else draft.items.change (Item.insertInto key value) draft.header
    items.map (⟨·, draft.header⟩)

/-- The entries of a document, if it is well formed. -/
def parse? (text : String) : Option Entries := do
  let (lines, _) ← entries text.toList
  let draft ← lines.foldlM Draft.add ⟨[], []⟩
  return Item.toEntries draft.items

end Toml
end ScriptLint
