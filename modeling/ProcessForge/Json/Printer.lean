import ProcessForge.Json.Value

/-! Printer of JSON values. Characters outside ASCII stand as they are. A layout says what divides
    items and names, and whether nested values go on lines of their own. -/

namespace ProcessForge.Json

/-- How a value is laid out. -/
structure Layout where
  itemMark : String
  nameMark : String
  indent : Option Nat := none

/-- One line, with a blank behind every mark. -/
def Layout.spaced : Layout := ⟨", ", ": ", none⟩

def Layout.compact : Layout := ⟨",", ":", none⟩

/-- Nested values on lines of their own, two blanks per level. -/
def Layout.indented : Layout := ⟨",", ": ", some 2⟩

def hexDigit (n : Nat) : Char := (Nat.toDigits 16 n).headD '0'

def escapeChar (c : Char) : List Char :=
  match c with
  | '"' => ['\\', '"']
  | '\\' => ['\\', '\\']
  | '\n' => ['\\', 'n']
  | '\r' => ['\\', 'r']
  | '\t' => ['\\', 't']
  | '\x08' => ['\\', 'b']
  | '\x0c' => ['\\', 'f']
  | c =>
    if c.toNat < 32 then ['\\', 'u', '0', '0', hexDigit (c.toNat / 16), hexDigit (c.toNat % 16)]
    else [c]

def quote (s : String) : String := String.ofList ('"' :: s.toList.flatMap escapeChar ++ ['"'])

def floatText : Binary64 → String
  | .nan => "NaN"
  | .infinite negative => if negative then "-Infinity" else "Infinity"
  | x => x.toText

/-- A new line at the given depth, for layouts with lines. -/
def Layout.newLine (layout : Layout) (depth : Nat) : String :=
  match layout.indent with
  | none => ""
  | some width => String.ofList ('\n' :: List.replicate (width * depth) ' ')

mutual

/-- Text of a value that stands at the given depth. -/
def renderAt (layout : Layout) (depth : Nat) : Json → String
  | null => "null"
  | bool b => if b then "true" else "false"
  | int n => toString n
  | float x => floatText x
  | str s => quote s
  | arr [] => "[]"
  | arr (item :: rest) =>
    "[" ++ layout.newLine (depth + 1) ++ renderAt layout (depth + 1) item
      ++ renderItems layout (depth + 1) rest ++ layout.newLine depth ++ "]"
  | obj [] => "\x7b\x7d"
  | obj ((name, value) :: rest) =>
    "\x7b" ++ layout.newLine (depth + 1) ++ quote name ++ layout.nameMark
      ++ renderAt layout (depth + 1) value ++ renderMembers layout (depth + 1) rest
      ++ layout.newLine depth ++ "\x7d"

/-- The items behind the first one, each with the mark before it. -/
def renderItems (layout : Layout) (depth : Nat) : List Json → String
  | [] => ""
  | item :: rest =>
    layout.itemMark ++ layout.newLine depth ++ renderAt layout depth item ++ renderItems layout depth rest

/-- The members behind the first one, each with the mark before it. -/
def renderMembers (layout : Layout) (depth : Nat) : List (String × Json) → String
  | [] => ""
  | (name, value) :: rest =>
    layout.itemMark ++ layout.newLine depth ++ quote name ++ layout.nameMark
      ++ renderAt layout depth value ++ renderMembers layout depth rest

end

def render (layout : Layout) (v : Json) : String := renderAt layout 0 v

end ProcessForge.Json
