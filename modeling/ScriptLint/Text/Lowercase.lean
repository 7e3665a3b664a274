import ScriptLint.Text.CodePoint

/-!
# Lower case

The lower-case form of a text in the sense of Unicode 17.0, character by character.  One character
has a form of two characters: the capital I with a dot above becomes a small i and a combining dot.
A sigma has the same form wherever it stands in a word.

A capital beyond ASCII stands right before its small letter, or belongs to a run of capitals whose
small letters are all at the same distance.
-/

namespace ScriptLint
namespace Text

/-- Ranges in which capitals and their small letters take turns. -/
def pairRanges : List (Nat × Nat) :=
  rangesFrom 0x80 [128,48,2,6,1,16,1,46,1,6,3,4,1,2,2,2,4,2,5,2,6,6,1,2,3,2,1,2,2,4,1,2,2,2,7,2,1,2,
    1,18,1,18,2,4,2,40,2,18,7,2,4,2,3,10,288,4,2,2,96,24,7,2,1,2,100,34,8,54,1,14,1,96,5977,2,373,
    150,10,96,643,2,2779,2,5,6,5,2,1,2,9,100,7,4,3,2,31052,46,18,28,134,14,2,62,9,4,1,10,3,2,3,4,2,
    20,10,16,3,4,1,16,25,2]

/-- The other capitals in runs: how many code points are passed over before the run, how many belong
to it, and how far they are from their small letters. -/
def capitalRuns : List (Nat × Nat × Int) :=
  [(64,23,32), (1,7,32), (153,1,-121), (8,1,210), (4,1,206), (2,2,205), (3,1,79), (0,1,202),
   (0,1,203), (2,1,205), (0,1,207), (1,1,211), (0,1,209), (4,1,211), (0,1,213), (1,1,214),
   (6,1,218), (2,1,218), (4,1,218), (2,2,217), (4,1,219), (12,1,2), (2,1,2), (2,1,2), (38,1,2),
   (4,1,-97), (0,1,-56), (40,1,-130), (25,1,10795), (2,1,-163), (0,1,10792), (4,1,-195), (0,1,69),
   (0,1,71), (313,1,116), (6,1,38), (1,3,37), (1,1,64), (1,2,63), (1,17,32), (1,9,32), (35,1,8),
   (36,1,-60), (4,1,-7), (3,3,-130), (0,16,80), (0,32,32), (144,1,15), (112,38,48), (2889,38,7264),
   (1,1,7264), (5,1,7264), (722,80,38864), (0,6,8), (2202,43,-3008), (2,3,-3008), (478,1,-7615),
   (105,8,-8), (8,6,-8), (10,8,-8), (8,8,-8), (8,6,-8), (11,1,-8), (1,1,-8), (1,1,-8), (1,1,-8),
   (8,8,-8), (24,8,-8), (8,8,-8), (8,8,-8), (8,2,-8), (0,2,-74), (0,1,-9), (11,4,-86), (0,1,-9),
   (11,2,-8), (0,2,-100), (12,2,-8), (0,2,-112), (0,1,-7), (11,2,-128), (0,2,-126), (0,1,-9),
   (297,1,-7517), (3,1,-8383), (0,1,-8262), (6,1,28), (45,16,16), (838,26,26), (1840,48,48),
   (50,1,-10743), (0,1,-3814), (0,1,-10727), (8,1,-10780), (0,1,-10749), (0,1,-10783), (0,1,-10782),
   (13,2,-10815), (31485,1,-35332), (15,1,-42280), (28,1,-42308), (0,1,-42319), (0,1,-42315),
   (0,1,-42305), (0,1,-42308), (1,1,-42258), (0,1,-42282), (0,1,-42261), (0,1,928), (16,1,-48),
   (0,1,-42307), (0,1,-35384), (4,1,-42343), (16,1,-42561), (22340,26,32), (1221,40,40),
   (136,36,40), (156,11,39), (1,15,39), (1,7,39), (1,2,39), (1770,51,64), (157,22,32), (2874,32,32),
   (21888,32,32), (64,25,27), (31303,34,34)]

/-- The small letter that one of the runs from a code point on gives to another. -/
def smallInRuns? (n : Nat) : (first : Nat) → List (Nat × Nat × Int) → Option Nat
  | _, [] => none
  | first, (gap, count, distance) :: runs =>
    if first + gap ≤ n && n < first + gap + count then some (n + distance).toNat
    else smallInRuns? n (first + gap + count) runs

/-- The code point of the small letter of a character beyond ASCII. -/
def smallCode (n : Nat) : Nat :=
  if pairRanges.any fun range => range.1 ≤ n && n ≤ range.2 && (n - range.1) % 2 == 0 then n + 1
  else (smallInRuns? n 0x80 capitalRuns).getD n

/-- The lower-case form of a character. -/
def lowerChar (c : Char) : List Char :=
  if c.toNat < 0x80 then [c.toLower]
  else if c.toNat == 0x130 then ['i', Char.ofNat 0x307]
  else [Char.ofNat (smallCode c.toNat)]

def lower (s : String) : String :=
  String.ofList (s.toList.flatMap lowerChar)

/-- The form of a text in which only the ASCII capitals are lowered. -/
def asciiLower (s : String) : String :=
  String.ofList (s.toList.map Char.toLower)

/-- The two texts agree up to the case of ASCII letters. -/
def eqIgnoringAsciiCase (s t : String) : Bool :=
  asciiLower s == asciiLower t

end Text
end ScriptLint
