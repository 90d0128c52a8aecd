import ProcessForge.Json.Value

/-! Reader of JSON texts. Besides the standard grammar it takes the words for the infinities and for
    not-a-number. A repeated name in an object keeps its first place and its last value. A whole
    number of more than 4300 digits is refused with a fault of its own. Every step of the reader
    consumes input, so a budget of one step per character is enough. -/

namespace ProcessForge.Json

/-- Why a text is no JSON value. -/
inductive Fault where
  | malformed
  | hugeNumber
  deriving DecidableEq, Repr, Inhabited

def isSpace (c : Char) : Bool := c == ' ' || c == '\t' || c == '\n' || c == '\r'

def skipSpace (cs : List Char) : List Char := cs.dropWhile isSpace

def hexValue? (c : Char) : Option Nat :=
  if '0' ≤ c && c ≤ '9' then some (c.toNat - '0'.toNat)
  else if 'a' ≤ c && c ≤ 'f' then some (c.toNat - 'a'.toNat + 10)
  else if 'A' ≤ c && c ≤ 'F' then some (c.toNat - 'A'.toNat + 10)
  else none

def readHex4 : List Char → Option (Nat × List Char)
  | a :: b :: c :: d :: rest => do
    let a ← hexValue? a
    let b ← hexValue? b
    let c ← hexValue? c
    let d ← hexValue? d
    return (((a * 16 + b) * 16 + c) * 16 + d, rest)
  | _ => none

def simpleEscape? : Char → Option Char
  | '"' => some '"'
  | '\\' => some '\\'
  | '/' => some '/'
  | 'b' => some '\x08'
  | 'f' => some '\x0c'
  | 'n' => some '\n'
  | 'r' => some '\r'
  | 't' => some '\t'
  | _ => none

/-- The second half of a pair of code units, if one follows. -/
def readLowSurrogate : List Char → Option (Nat × List Char)
  | '\\' :: 'u' :: rest =>
    match readHex4 rest with
    | some (unit, rest) => if 0xDC00 ≤ unit && unit ≤ 0xDFFF then some (unit, rest) else none
    | none => none
  | _ => none

/-- The character of a numeric escape. Half a pair stands for the replacement character. -/
def readUnit (cs : List Char) : Option (Char × List Char) :=
  match readHex4 cs with
  | none => none
  | some (unit, rest) =>
    if 0xD800 ≤ unit && unit ≤ 0xDBFF then
      match readLowSurrogate rest with
      | some (low, rest) =>
        some (Char.ofNat (0x10000 + (unit - 0xD800) * 0x400 + (low - 0xDC00)), rest)
      | none => some ('�', rest)
    else if 0xDC00 ≤ unit && unit ≤ 0xDFFF then some ('�', rest)
    else some (Char.ofNat unit, rest)

/-- The characters of a string up to its closing quote. -/
def readString : Nat → List Char → Except Fault (List Char × List Char)
  | 0, _ => .error .malformed
  | _ + 1, [] => .error .malformed
  | _ + 1, '"' :: rest => .ok ([], rest)
  | fuel + 1, '\\' :: 'u' :: rest =>
    match readUnit rest with
    | none => .error .malformed
    | some (c, rest) => do
      let (cs, rest) ← readString fuel rest
      return (c :: cs, rest)
  | fuel + 1, '\\' :: e :: rest =>
    match simpleEscape? e with
    | none => .error .malformed
    | some c => do
      let (cs, rest) ← readString fuel rest
      return (c :: cs, rest)
  | fuel + 1, c :: rest =>
    if c.toNat < 32 || c == '\\' then .error .malformed
    else do
      let (cs, rest) ← readString fuel rest
      return (c :: cs, rest)

def digitsOf (cs : List Char) : List Char := cs.takeWhile Char.isDigit

def digitsValue (cs : List Char) : Nat := cs.foldl (fun n c => 10 * n + (c.toNat - '0'.toNat)) 0

/-- A fraction: the digits behind a point, or nothing. -/
def readFraction : List Char → List Char × List Char
  | '.' :: rest =>
    let digits := digitsOf rest
    if digits.isEmpty then ([], '.' :: rest) else (digits, rest.drop digits.length)
  | cs => ([], cs)

/-- Digits of a power of ten with their sign, behind its mark. -/
def readPowerDigits (cs : List Char) : Option (Int × List Char) :=
  let (negative, body) :=
    match cs with
    | '-' :: rest => (true, rest)
    | '+' :: rest => (false, rest)
    | _ => (false, cs)
  let digits := digitsOf body
  if digits.isEmpty then none
  else
    let n : Int := digitsValue digits
    some (if negative then -n else n, body.drop digits.length)

/-- A power of ten, if one follows. -/
def readPower : List Char → Option (Int × List Char)
  | 'e' :: rest => readPowerDigits rest
  | 'E' :: rest => readPowerDigits rest
  | _ => none

/-- A number, after its sign. -/
def readNumber (negative : Bool) (cs : List Char) : Except Fault (Json × List Char) :=
  let whole :=
    match cs with
    | '0' :: _ => ['0']
    | _ => digitsOf cs
  if whole.isEmpty then .error .malformed
  else
    let (fraction, rest) := readFraction (cs.drop whole.length)
    match readPower rest with
    | some (power, rest) =>
      let digits := whole ++ fraction
      .ok (float (Binary64.ofDecimal negative (digitsValue digits) digits.length (power - fraction.length)), rest)
    | none =>
      if fraction.isEmpty then
        if 4300 < whole.length then .error .hugeNumber
        else
          let n : Int := digitsValue whole
          .ok (int (if negative then -n else n), rest)
      else
        let digits := whole ++ fraction
        .ok (float (Binary64.ofDecimal negative (digitsValue digits) digits.length (-(fraction.length : Int))), rest)

/-- A fixed word, if the text begins with it. -/
def readWord : List Char → Option (Json × List Char)
  | 'n' :: 'u' :: 'l' :: 'l' :: rest => some (null, rest)
  | 't' :: 'r' :: 'u' :: 'e' :: rest => some (bool true, rest)
  | 'f' :: 'a' :: 'l' :: 's' :: 'e' :: rest => some (bool false, rest)
  | 'N' :: 'a' :: 'N' :: rest => some (float .nan, rest)
  | 'I' :: 'n' :: 'f' :: 'i' :: 'n' :: 'i' :: 't' :: 'y' :: rest =>
    some (float (.infinite false), rest)
  | '-' :: 'I' :: 'n' :: 'f' :: 'i' :: 'n' :: 'i' :: 't' :: 'y' :: rest =>
    some (float (.infinite true), rest)
  | _ => none

mutual

def readValue : Nat → List Char → Except Fault (Json × List Char)
  | 0, _ => .error .malformed
  | _ + 1, [] => .error .malformed
  | _ + 1, '"' :: rest => do
    let (cs, rest) ← readString (rest.length + 1) rest
    return (str (String.ofList cs), rest)
  | fuel + 1, '[' :: rest =>
    match skipSpace rest with
    | ']' :: rest => .ok (arr [], rest)
    | rest => do
      let (items, rest) ← readItems fuel rest
      return (arr items, rest)
  | fuel + 1, '\x7b' :: rest =>
    match skipSpace rest with
    | '\x7d' :: rest => .ok (obj [], rest)
    | rest => do
      let (members, rest) ← readMembers fuel rest
      return (obj (OrderedMap.ofList members), rest)
  | _ + 1, cs =>
    match readWord cs with
    | some (value, rest) => .ok (value, rest)
    | none =>
      match cs with
      | '-' :: rest => readNumber true rest
      | _ => readNumber false cs

/-- The items of an array that has some, up to its closing bracket. -/
def readItems : Nat → List Char → Except Fault (List Json × List Char)
  | 0, _ => .error .malformed
  | fuel + 1, cs => do
    let (item, rest) ← readValue fuel (skipSpace cs)
    match skipSpace rest with
    | ']' :: rest => return ([item], rest)
    | ',' :: rest => do
      let (items, rest) ← readItems fuel rest
      return (item :: items, rest)
    | _ => .error .malformed

/-- The members of an object that has some, up to its closing brace. -/
def readMembers : Nat → List Char → Except Fault (List (String × Json) × List Char)
  | 0, _ => .error .malformed
  | fuel + 1, cs =>
    match skipSpace cs with
    | '"' :: rest => do
      let (name, rest) ← readString (rest.length + 1) rest
      match skipSpace rest with
      | ':' :: rest => do
        let (value, rest) ← readValue fuel (skipSpace rest)
        match skipSpace rest with
        | '\x7d' :: rest => return ([(String.ofList name, value)], rest)
        | ',' :: rest => do
          let (members, rest) ← readMembers fuel rest
          return ((String.ofList name, value) :: members, rest)
        | _ => .error .malformed
      | _ => .error .malformed
    | _ => .error .malformed

end

def parse (s : String) : Except Fault Json := do
  let cs := skipSpace s.toList
  let (value, rest) ← readValue (2 * cs.length + 1) cs
  match skipSpace rest with
  | [] => return value
  | _ => .error .malformed

end ProcessForge.Json
