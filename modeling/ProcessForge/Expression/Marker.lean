import ProcessForge.Text.Blank
import ProcessForge.Text.Search

/-! Authored expressions. A variable path is marked with a tilde on both sides. A text is cut at its
    tildes: a piece with a tilde on both sides and something in it is marked, and two tildes side by
    side mark nothing, the second of them may still open a mark. Interpolations are written with a
    dollar sign and braces and end at the first closing brace. -/

namespace ProcessForge.Expression

/-! ### Marks -/

/-- Replaces marked pieces. Every piece of the list has a tilde in front of it. -/
def replacePieces (f : List Char → List Char) : List (List Char) → List Char
  | [] => []
  | [last] => '~' :: last
  | body :: next :: rest =>
    if body.isEmpty then '~' :: replacePieces f (next :: rest)
    else f body ++ next ++ replacePieces f rest

def replaceMarked (f : List Char → List Char) (cs : List Char) : List Char :=
  match Text.splitAtChar '~' cs with
  | [] => []
  | first :: rest => first ++ replacePieces f rest

/-- The first marked piece among pieces with a tilde in front of them. -/
def firstPiece? : List (List Char) → Option (List Char)
  | [] => none
  | [_] => none
  | body :: next :: rest => if body.isEmpty then firstPiece? (next :: rest) else some body

def firstMarked? (cs : List Char) : Option (List Char) := firstPiece? ((Text.splitAtChar '~' cs).drop 1)

/-! ### Interpolations -/

/-- The text between the braces of an interpolation with which the characters begin. -/
def bracedAt? : List Char → Option (List Char)
  | '$' :: '\x7b' :: rest =>
    let body := rest.takeWhile (· != '\x7d')
    if body.length < rest.length then some body else none
  | _ => none

/-- Replaces interpolations whose text is accepted. Characters of one that was just replaced are
    passed over. -/
def replaceBracedFrom (accept : List Char → Option (List Char)) : Nat → List Char → List Char
  | _, [] => []
  | skip + 1, _ :: rest => replaceBracedFrom accept skip rest
  | 0, c :: rest =>
    match bracedAt? (c :: rest) with
    | none => c :: replaceBracedFrom accept 0 rest
    | some body =>
      match accept body with
      | none => c :: replaceBracedFrom accept 0 rest
      | some new => new ++ replaceBracedFrom accept (body.length + 2) rest

/-- Replaces interpolations from left to right; `accept` gives the new text or refuses. -/
def replaceBraced (accept : List Char → Option (List Char)) (cs : List Char) : List Char :=
  replaceBracedFrom accept 0 cs

/-- The path of an interpolation that is marked as a whole. -/
def wholeMark? : List Char → Option (List Char)
  | '~' :: rest =>
    match rest.getLast? with
    | some '~' => if 2 ≤ rest.length then some rest.dropLast else none
    | _ => none
  | _ => none

/-- Replaces interpolations that are marked as a whole. -/
def replaceWholeMarks (f : List Char → List Char) (cs : List Char) : List Char :=
  replaceBraced (fun body => (wholeMark? body).map f) cs

/-- Replaces interpolations that have something between their braces. -/
def replaceInterpolations (f : List Char → List Char) (cs : List Char) : List Char :=
  replaceBraced (fun body => if body.isEmpty then none else some (f body)) cs

/-- The texts between braces, from left to right. -/
def interpolationsFrom : Nat → List Char → List (List Char)
  | _, [] => []
  | skip + 1, _ :: rest => interpolationsFrom skip rest
  | 0, c :: rest =>
    match bracedAt? (c :: rest) with
    | none => interpolationsFrom 0 rest
    | some body =>
      if body.isEmpty then interpolationsFrom 0 rest
      else body :: interpolationsFrom (body.length + 2) rest

/-- The texts of the interpolations of a text that are not empty. -/
def interpolations (cs : List Char) : List (List Char) := interpolationsFrom 0 cs

/-- What stands between the dollar sign with its brace and the last brace, if that is the whole. -/
def unwrap? : List Char → Option (List Char)
  | '$' :: '\x7b' :: rest =>
    match rest.getLast? with
    | some '\x7d' => some rest.dropLast
    | _ => none
  | _ => none

def interpolate (path : List Char) : List Char := '$' :: '\x7b' :: path ++ ['\x7d']

def dropFinalNewline (cs : List Char) : List Char :=
  match cs.getLast? with
  | some '\n' => cs.dropLast
  | _ => cs

/-- The text of an interpolation that is the whole text. -/
def bracedExactly? (cs : List Char) : Option (List Char) :=
  match bracedAt? cs with
  | some body => if body.length + 3 == cs.length then some body else none
  | none => none

/-- The text of an interpolation that is the whole text, but for a line feed at the end. -/
def wholeBraced? (cs : List Char) : Option (List Char) := bracedExactly? (dropFinalNewline cs)

end ProcessForge.Expression
