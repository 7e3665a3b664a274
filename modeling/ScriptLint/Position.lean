import ScriptLint.Text.Bytes

/-!
# Positions and spans

A position names a place in a text three times over: by line, by column in characters, and by byte
offset.  A span runs from one position to another and covers the bytes from the first offset up to,
and not including, the second.
-/

namespace ScriptLint

/-- A place in a text; lines and columns count from 1, offsets from 0. -/
structure Position where
  line : Nat
  column : Nat
  offset : Nat
deriving DecidableEq, Repr

namespace Position

def origin : Position :=
  ⟨1, 1, 0⟩

instance : Inhabited Position :=
  ⟨origin⟩

/-- The place after some characters of the same line. -/
def advance (p : Position) (cs : List Char) : Position :=
  ⟨p.line, p.column + cs.length, p.offset + Text.byteLength cs⟩

/-- Positions are compared by line, then by column, then by offset. -/
def compare (p q : Position) : Ordering :=
  (Ord.compare p.line q.line).then
    ((Ord.compare p.column q.column).then (Ord.compare p.offset q.offset))

instance : Ord Position :=
  ⟨compare⟩

end Position

/-- A piece of a text, from one position to another. -/
structure Span where
  start : Position
  stop : Position
deriving DecidableEq, Repr

namespace Span

/-- The empty span at a position. -/
def point (p : Position) : Span :=
  ⟨p, p⟩

instance : Inhabited Span :=
  ⟨point Position.origin⟩

/-- The span between two positions, empty at the first if the second comes before it. -/
def between (start stop : Position) : Span :=
  if stop.offset < start.offset then point start else ⟨start, stop⟩

/-- The span from the start of one span to the end of another. -/
def through (a b : Span) : Span :=
  between a.start b.stop

def length (s : Span) : Nat :=
  s.stop.offset - s.start.offset

def isEmpty (s : Span) : Bool :=
  s.length == 0

/-- The offset lies in the span or at one of its ends. -/
def containsOffset (s : Span) (offset : Nat) : Bool :=
  s.start.offset ≤ offset && offset ≤ s.stop.offset

/-- The text covered by the span, empty if the span does not fit the text. -/
def slice (s : Span) (source : String) : String :=
  String.ofList ((Text.slice? source.toList s.start.offset s.stop.offset).getD [])

@[simp]
theorem start_between (p q : Position) : (between p q).start = p := by
  unfold between; split <;> rfl

theorem start_le_stop_between (p q : Position) :
    (between p q).start.offset ≤ (between p q).stop.offset := by
  unfold between; split
  · exact Nat.le_refl _
  · simp; omega

end Span

end ScriptLint
