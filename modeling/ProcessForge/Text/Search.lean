/-! Search inside texts: fixed pieces, first and last places of a character, replacement. All
    functions work on lists of characters and read them from left to right. -/

namespace ProcessForge.Text

def dropPrefix? : List Char → List Char → Option (List Char)
  | [], cs => some cs
  | _ :: _, [] => none
  | p :: ps, c :: cs => if p == c then dropPrefix? ps cs else none

def dropSuffix? (ending cs : List Char) : Option (List Char) := (dropPrefix? ending.reverse cs.reverse).map List.reverse

def hasPiece (piece : List Char) : List Char → Bool
  | [] => piece.isEmpty
  | c :: rest => piece.isPrefixOf (c :: rest) || hasPiece piece rest

/-- Replaces a piece of `skip + 1` characters wherever it occurs; `skip` further characters of a
    piece that was just replaced are passed over. -/
def replaceFrom (piece new : List Char) : Nat → List Char → List Char
  | _, [] => []
  | skip + 1, _ :: rest => replaceFrom piece new skip rest
  | 0, c :: rest =>
    if piece.isPrefixOf (c :: rest) then new ++ replaceFrom piece new (piece.length - 1) rest
    else c :: replaceFrom piece new 0 rest

/-- Replaces every occurrence of a non-empty piece, from left to right and without overlaps. -/
def replaceAll (piece new cs : List Char) : List Char := replaceFrom piece new 0 cs

def swapChar (old new : Char) (cs : List Char) : List Char := cs.map fun c => if c == old then new else c

/-- The pieces between the occurrences of a character, empty ones included. -/
def splitAtChar (separator : Char) : List Char → List (List Char)
  | [] => [[]]
  | c :: rest =>
    if c == separator then [] :: splitAtChar separator rest
    else match splitAtChar separator rest with
      | [] => [[c]]
      | piece :: pieces => (c :: piece) :: pieces

/-- The text before and after the first occurrence of a character. -/
def splitFirst? (separator : Char) (cs : List Char) : Option (List Char × List Char) :=
  match cs.dropWhile (· != separator) with
  | [] => none
  | _ :: after => some (cs.takeWhile (· != separator), after)

/-- What follows the last occurrence of a character; the whole text if there is none. -/
def afterLast (separator : Char) (cs : List Char) : List Char := (cs.reverse.takeWhile (· != separator)).reverse

def contains (s piece : String) : Bool := hasPiece piece.toList s.toList

end ProcessForge.Text
