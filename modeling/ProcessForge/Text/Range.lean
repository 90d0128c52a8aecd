/-! A character class is given by a table of closed ranges of code points in ascending order. A
    character belongs to the class when some range of the table holds its code point. -/

namespace ProcessForge.Text

/-- Whether one of the closed ranges of the table holds the code point. -/
def inRanges (table : List (Nat × Nat)) (point : Nat) : Bool :=
  table.any fun range => range.1 ≤ point && point ≤ range.2

/-- Ranges that are written by their gaps: how many code points stand between a range and the one before, and how many
    it holds, in turns. -/
def rangesFrom (start : Nat) : List Nat → List (Nat × Nat)
  | gap :: size :: rest => (start + gap, start + gap + size - 1) :: rangesFrom (start + gap + size) rest
  | _ => []

end ProcessForge.Text
