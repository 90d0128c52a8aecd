/-! Blank characters and what is cut at them: the ends of a text, its words and its lines. A line
    ends at a line feed, a carriage return, both together, or one of eight further separators. -/

namespace ProcessForge.Text

/-- White space of every script, and the four information separators. -/
def isBlank (c : Char) : Bool :=
  let point := c.toNat
  (9 ≤ point && point ≤ 13) || (28 ≤ point && point ≤ 32) || point == 0x85 || point == 0xA0
    || point == 0x1680 || (0x2000 ≤ point && point ≤ 0x200A) || point == 0x2028 || point == 0x2029
    || point == 0x202F || point == 0x205F || point == 0x3000

def trimBy (p : Char → Bool) (cs : List Char) : List Char := ((cs.dropWhile p).reverse.dropWhile p).reverse

def trimChars (cs : List Char) : List Char := trimBy isBlank cs

def trim (s : String) : String := String.ofList (trimChars s.toList)

/-- Whether nothing is left of a text once its blanks are cut off. -/
def isBlankText (s : String) : Bool := s.toList.all isBlank

/-- The pieces between blanks, without empty ones. -/
def words : List Char → List (List Char)
  | [] => []
  | c :: rest =>
    if isBlank c then words rest
    else match rest with
      | [] => [[c]]
      | d :: _ =>
        if isBlank d then [c] :: words rest
        else match words rest with
          | [] => [[c]]
          | w :: ws => (c :: w) :: ws

def isLineBreak (c : Char) : Bool :=
  let point := c.toNat
  (10 ≤ point && point ≤ 13) || (28 ≤ point && point ≤ 30) || point == 0x85
    || point == 0x2028 || point == 0x2029

/-- The lines of a text. A break at the very end opens no further line. -/
def lines : List Char → List (List Char)
  | [] => []
  | '\r' :: '\n' :: rest => [] :: lines rest
  | c :: rest =>
    if isLineBreak c then [] :: lines rest
    else match lines rest with
      | [] => [[c]]
      | l :: ls => (c :: l) :: ls

def joinChars (separator : List Char) : List (List Char) → List Char
  | [] => []
  | [last] => last
  | first :: rest => first ++ separator ++ joinChars separator rest

/-- Drops the lines that hold blanks only and ends every other line with a line feed. A text without
    any such line becomes a single line feed. -/
def dropBlankLines (s : String) : String := String.ofList
    (joinChars ['\n'] ((lines s.toList).filter fun line => !line.all isBlank) ++ ['\n'])

/-- Turns every line end into a line feed, as text files are read. -/
def unifyNewlines : List Char → List Char
  | [] => []
  | '\r' :: '\n' :: rest => '\n' :: unifyNewlines rest
  | '\r' :: rest => '\n' :: unifyNewlines rest
  | c :: rest => c :: unifyNewlines rest

end ProcessForge.Text
