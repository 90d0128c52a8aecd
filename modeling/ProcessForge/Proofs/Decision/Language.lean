import Mathlib.Data.List.TakeWhile
import ProcessForge.Decision.Script

/-! The language of decision scripts: programs that are chains of conditional returns. A text is read into a
    program, and a program is run on the values of its variables. Blanks between words and marks do not
    matter. What values are, and what equality and order mean for them, is left open.

        program  :  if ( formula ) { return result }  program   |   return result
        formula  :  term   |   term && formula
        term     :  ! term   |   ( formula )   |   [ literals ].contains( name )   |   name relation literal -/

namespace ProcessForge.Decision

open Text

/-! ### Programs -/

/-- Relations between values. -/
inductive Relation where
  | equal | unequal | less | greater | atMost | atLeast
  deriving DecidableEq, Repr

/-- Constants of the language. -/
inductive Literal where
  | number (n : Int)
  | flag (b : Bool)
  | text (s : String)
  deriving DecidableEq, Repr

/-- Conditions on variables. -/
inductive Formula where
  | constant (b : Bool)
  | compare (name : String) (relation : Relation) (value : Literal)
  | member (items : List Literal) (name : String)
  | negation (f : Formula)
  | both (f g : Formula)
  deriving DecidableEq, Repr

/-- A chain of results under conditions, and the result if no condition holds. -/
structure Program where
  branches : List (Formula × String)
  last : String
  deriving DecidableEq, Repr

/-! ### Meaning -/

/-- What the constants denote among the values, and when values are equal or in order. -/
structure Meaning (V : Type) where
  value : Literal → V
  equal : V → V → Bool
  less : V → V → Bool
  atMost : V → V → Bool

variable {V : Type}

/-- Whether a relation holds between two values. -/
def Meaning.relates (M : Meaning V) : Relation → V → V → Bool
  | .equal, a, b => M.equal a b
  | .unequal, a, b => !M.equal a b
  | .less, a, b => M.less a b
  | .greater, a, b => M.less b a
  | .atMost, a, b => M.atMost a b
  | .atLeast, a, b => M.atMost b a

/-- Truth of a formula; nothing if it reads a variable without a value. -/
def Formula.eval (M : Meaning V) (values : String → Option V) : Formula → Option Bool
  | constant b => some b
  | compare name relation value =>
    (values name).map fun v => M.relates relation v (M.value value)
  | member items name => (values name).map fun v => items.any fun item => M.equal v (M.value item)
  | negation f => (f.eval M values).map (!·)
  | both f g => (f.eval M values).bind fun b => if b then g.eval M values else some false

/-- The result of the first branch whose condition holds. -/
def runBranches (M : Meaning V) (values : String → Option V) (last : String) : List (Formula × String) → Option String
  | [] => some last
  | (f, result) :: rest =>
    (f.eval M values).bind fun b => if b then some result else runBranches M values last rest

def Program.run (M : Meaning V) (values : String → Option V) (p : Program) : Option String :=
  runBranches M values p.last p.branches

/-! ### Words and marks -/

/-- What follows a mark, which may have blanks in front. -/
def expect? (mark : List Char) (cs : List Char) : Option (List Char) :=
  dropPrefix? mark (cs.dropWhile isBlank)

/-- Whether a name can begin with the character. -/
def isNameStart (c : Char) : Bool := c.isAlpha || c == '_'

def readName? (cs : List Char) : Option (String × List Char) :=
  match cs.dropWhile isBlank with
  | c :: rest =>
    if isNameStart c then
      some (String.ofList (c :: rest.takeWhile isNameChar), rest.dropWhile isNameChar)
    else none
  | [] => none

def readNatural? (cs : List Char) : Option (Nat × List Char) :=
  let digits := cs.takeWhile Char.isDigit
  if digits.isEmpty then none
  else some (Nat.ofDigitChars 10 digits 0, cs.dropWhile Char.isDigit)

/-- A number without a sign, or a truth value. -/
def readPlain? (cs : List Char) : Option (Literal × List Char) :=
  match readNatural? cs with
  | some (n, rest) => some (.number n, rest)
  | none =>
    match readName? cs with
    | some ("true", rest) => some (.flag true, rest)
    | some ("false", rest) => some (.flag false, rest)
    | _ => none

/-- A constant: a text in quotes, a number, or a truth value. -/
def readLiteral? (cs : List Char) : Option (Literal × List Char) :=
  match cs.dropWhile isBlank with
  | '"' :: rest => (splitFirst? '"' rest).map fun (s, rest) => (.text (String.ofList s), rest)
  | '-' :: rest => (readNatural? rest).map fun (n, rest) => (.number (-n), rest)
  | rest => readPlain? rest

def readRelation? (cs : List Char) : Option (Relation × List Char) :=
  match cs.dropWhile isBlank with
  | '=' :: '=' :: rest => some (.equal, rest)
  | '!' :: '=' :: rest => some (.unequal, rest)
  | '<' :: '=' :: rest => some (.atMost, rest)
  | '>' :: '=' :: rest => some (.atLeast, rest)
  | '<' :: rest => some (.less, rest)
  | '>' :: rest => some (.greater, rest)
  | _ => none

/-! ### Formulas -/

/-- Constants up to the bracket that closes their list. The fuel bounds their number. -/
def readItems? : Nat → List Char → Option (List Literal × List Char)
  | 0, _ => none
  | fuel + 1, cs => do
    let (item, rest) ← readLiteral? cs
    match expect? [','] rest with
    | some rest =>
      let (items, rest) ← readItems? fuel rest
      return (item :: items, rest)
    | none =>
      let rest ← expect? [']'] rest
      return ([item], rest)

def readList? (fuel : Nat) (cs : List Char) : Option (List Literal × List Char) :=
  match expect? [']'] cs with
  | some rest => some ([], rest)
  | none => readItems? fuel cs

/-- A comparison of a variable, or a truth value. -/
def readComparison? (cs : List Char) : Option (Formula × List Char) := do
  let (name, rest) ← readName? cs
  if name == "true" then return (.constant true, rest)
  else if name == "false" then return (.constant false, rest)
  else
    let (relation, rest) ← readRelation? rest
    let (value, rest) ← readLiteral? rest
    return (.compare name relation value, rest)

mutual

/-- A term. The fuel bounds the depth of the recursion. -/
def readTerm? : Nat → List Char → Option (Formula × List Char)
  | 0, _ => none
  | fuel + 1, cs =>
    match cs.dropWhile isBlank with
    | '!' :: rest => do
      let (f, rest) ← readTerm? fuel rest
      return (.negation f, rest)
    | '(' :: rest => do
      let (f, rest) ← readFormula? fuel rest
      let rest ← expect? [')'] rest
      return (f, rest)
    | '[' :: rest => do
      let (items, rest) ← readList? fuel rest
      let rest ← expect? ".contains(".toList rest
      let (name, rest) ← readName? rest
      let rest ← expect? [')'] rest
      return (.member items name, rest)
    | rest => readComparison? rest

/-- A formula: terms with conjunctions between them. -/
def readFormula? : Nat → List Char → Option (Formula × List Char)
  | 0, _ => none
  | fuel + 1, cs => do
    let (f, rest) ← readTerm? fuel cs
    match expect? ['&', '&'] rest with
    | some rest =>
      let (g, rest) ← readFormula? fuel rest
      return (.both f g, rest)
    | none => return (f, rest)

end

/-! ### Chains -/

/-- The texts before and behind the first place where a piece occurs. -/
def splitAtPiece? (piece : List Char) : List Char → Option (List Char × List Char)
  | [] => if piece.isEmpty then some ([], []) else none
  | c :: rest =>
    match dropPrefix? piece (c :: rest) with
    | some after => some ([], after)
    | none => (splitAtPiece? piece rest).map fun (before, after) => (c :: before, after)

/-- A chain of branches. The result of a branch ends at the line that begins with the brace that closes the
    branch, the last result at the end of its line. -/
def readChain? : Nat → List Char → Option Program
  | 0, _ => none
  | fuel + 1, cs =>
    match expect? "if".toList cs with
    | some rest => do
      let rest ← expect? ['('] rest
      let (condition, rest) ← readFormula? fuel rest
      let rest ← expect? [')'] rest
      let rest ← expect? ['\x7b'] rest
      let rest ← expect? "return ".toList rest
      let (result, rest) ← splitAtPiece? ['\n', '\x7d'] rest
      let program ← readChain? fuel rest
      return { program with branches := (condition, String.ofList result) :: program.branches }
    | none => do
      let rest ← expect? "return ".toList cs
      let (result, rest) ← splitFirst? '\n' rest
      if rest.all isBlank then return ⟨[], String.ofList result⟩ else none

def Program.ofText? (s : String) : Option Program := readChain? (s.length + 1) s.toList

def runText (M : Meaning V) (values : String → Option V) (s : String) : Option String :=
  (Program.ofText? s).bind (Program.run M values)

end ProcessForge.Decision
