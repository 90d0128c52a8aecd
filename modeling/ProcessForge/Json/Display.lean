import ProcessForge.Json.Printer
import ProcessForge.Text.Printable

/-! The text of a JSON value as an attribute shows it. A string shows itself; truth values are
    capitalized words; lists and maps show their parts, with strings in quotes. A quoted string uses
    single quotes unless it has a single quote and no double quote, and shows characters that are
    not printable by their number. -/

namespace ProcessForge.Json

/-- Hexadecimal digits of a number, filled with zeros to the given width. -/
def hexPlaces (width n : Nat) : List Char :=
  let digits := Nat.toDigits 16 n
  List.replicate (width - digits.length) '0' ++ digits

def displayChar (mark : Char) (c : Char) : List Char :=
  if c == '\\' || c == mark then ['\\', c]
  else if c == '\n' then ['\\', 'n']
  else if c == '\r' then ['\\', 'r']
  else if c == '\t' then ['\\', 't']
  else if Text.isPrintable c then [c]
  else if c.toNat < 0x100 then '\\' :: 'x' :: hexPlaces 2 c.toNat
  else if c.toNat < 0x10000 then '\\' :: 'u' :: hexPlaces 4 c.toNat
  else '\\' :: 'U' :: hexPlaces 8 c.toNat

def displayQuoted (s : String) : String :=
  let cs := s.toList
  let mark := if cs.contains '\'' && !cs.contains '"' then '"' else '\''
  String.ofList (mark :: cs.flatMap (displayChar mark) ++ [mark])

mutual

def displayPart : Json → String
  | null => "None"
  | bool b => if b then "True" else "False"
  | int n => toString n
  | float x => x.toText
  | str s => displayQuoted s
  | arr [] => "[]"
  | arr (item :: rest) => "[" ++ displayPart item ++ displayItems rest ++ "]"
  | obj [] => "\x7b\x7d"
  | obj ((name, value) :: rest) =>
    "\x7b" ++ displayQuoted name ++ ": " ++ displayPart value ++ displayMembers rest ++ "\x7d"

/-- Further items, each with a comma before it. -/
def displayItems : List Json → String
  | [] => ""
  | item :: rest => ", " ++ displayPart item ++ displayItems rest

/-- Further members, each with a comma before it. -/
def displayMembers : List (String × Json) → String
  | [] => ""
  | (name, value) :: rest =>
    ", " ++ displayQuoted name ++ ": " ++ displayPart value ++ displayMembers rest

end

def display : Json → String
  | str s => s
  | v => displayPart v

end ProcessForge.Json
