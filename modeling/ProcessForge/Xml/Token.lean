import ProcessForge.Text.Blank
import ProcessForge.Text.Search
import ProcessForge.Xml.Character

/-! The text of a document as a row of tokens: tags, character data, comments and instructions.
    Character data is divided where a reader meets a carriage return or a character outside ASCII,
    and each part remembers what follows it, since that decides whether blank parts are kept.
    References to entities are replaced by the tokens of their text. -/

namespace ProcessForge.Xml

/-- A name as written. -/
structure RawName where
  short : Option String
  stem : String
  deriving DecidableEq, Repr, Inhabited

/-- What follows a part of character data. -/
inductive Follow where
  | endTag
  | markup
  | carriageReturn
  | other
  deriving DecidableEq, Repr, Inhabited

/-- A token of a document. -/
inductive Token where
  | startTag (name : RawName) (attributes : List (RawName × String)) (closed : Bool)
  | endTag (name : RawName)
  | data (cs : List Char) (follow : Follow)
  | verbatim (cs : List Char)
  | comment (s : String)
  | instruction (target : String) (body : Option String)
  deriving Repr, Inhabited

def skipSpace (cs : List Char) : List Char := cs.dropWhile isSpace

/-- The text up to a fixed piece, and what follows the piece. -/
def splitAtPiece? (piece : List Char) : List Char → Option (List Char × List Char)
  | [] => none
  | c :: rest =>
    match Text.dropPrefix? piece (c :: rest) with
    | some after => some ([], after)
    | none => (splitAtPiece? piece rest).map fun (front, after) => (c :: front, after)

/-- A text between two equal quotes, without the quotes. -/
def readQuoted : List Char → Option (List Char × List Char)
  | q :: rest => if q == '"' || q == '\'' then Text.splitFirst? q rest else none
  | [] => none

/-! ### Names -/

def readNcName : List Char → Option (String × List Char)
  | c :: rest =>
    if isNameStart c then
      some (String.ofList (c :: rest.takeWhile isNamePart), rest.dropWhile isNamePart)
    else none
  | [] => none

def readName (cs : List Char) : Option (RawName × List Char) := do
  let (first, rest) ← readNcName cs
  match rest with
  | ':' :: rest =>
    let (second, rest) ← readNcName rest
    match rest with
    | ':' :: _ => none
    | _ => return (⟨some first, second⟩, rest)
  | _ => return (⟨none, first⟩, rest)

/-! ### References -/

abbrev Entities := List (String × List Char)

def builtinEntity? (name : String) : Option Char :=
  match name with
  | "lt" => some '<'
  | "gt" => some '>'
  | "amp" => some '&'
  | "quot" => some '"'
  | "apos" => some '\''
  | _ => none

/-- Number written with digits of a base; nothing if there is none or another character. -/
def readPoint? (base : Nat) (cs : List Char) : Option Nat :=
  if cs.isEmpty then none
  else cs.foldlM (fun total c =>
    let digit :=
      if c.isDigit then some (c.toNat - '0'.toNat)
      else if base == 16 && 'a' ≤ c && c ≤ 'f' then some (c.toNat - 'a'.toNat + 10)
      else if base == 16 && 'A' ≤ c && c ≤ 'F' then some (c.toNat - 'A'.toNat + 10)
      else none
    digit.map fun d => min (total * base + d) 0x110000) 0

/-- The character with a number, if a document may hold it. -/
def allowedPoint? (point : Nat) : Option Char :=
  if point < 0x110000 && !(0xD800 ≤ point && point ≤ 0xDFFF) && isAllowed (Char.ofNat point) then
    some (Char.ofNat point)
  else none

inductive Reference where
  | character (c : Char)
  | entity (name : String)

/-- A reference, behind its ampersand. -/
def readReference (cs : List Char) : Option (Reference × List Char) :=
  match cs with
  | '#' :: 'x' :: rest => do
    let (digits, rest) ← Text.splitFirst? ';' rest
    let c ← (readPoint? 16 digits).bind allowedPoint?
    return (.character c, rest)
  | '#' :: rest => do
    let (digits, rest) ← Text.splitFirst? ';' rest
    let c ← (readPoint? 10 digits).bind allowedPoint?
    return (.character c, rest)
  | _ => do
    let (name, rest) ← readName cs
    let written := match name.short with
      | some short => short ++ ":" ++ name.stem
      | none => name.stem
    match rest with
    | ';' :: rest =>
      match builtinEntity? written with
      | some c => return (.character c, rest)
      | none => return (.entity written, rest)
    | _ => none

/-- An attribute value with its blanks made spaces and its references resolved by `expand`. -/
def resolveValue (expand : String → Option (List Char)) : Nat → List Char → Option (List Char)
  | 0, _ => none
  | _ + 1, [] => some []
  | fuel + 1, '&' :: rest => do
    let (reference, rest) ← readReference rest
    let front ← match reference with
      | .character c => some [c]
      | .entity name => expand name
    let back ← resolveValue expand fuel rest
    return front ++ back
  | fuel + 1, '\r' :: '\n' :: rest => (resolveValue expand fuel rest).map (' ' :: ·)
  | fuel + 1, c :: rest =>
    if c == '<' || !isAllowed c then none
    else (resolveValue expand fuel rest).map ((if isSpace c then ' ' else c) :: ·)

/-- An attribute value; entities may nest as deep as there are entities. -/
def readValue : Nat → Entities → List Char → Option (List Char)
  | 0, _, _ => none
  | depth + 1, entities, cs =>
    resolveValue
      (fun name => (entities.lookup name).bind fun text =>
        readValue depth (entities.filter fun entry => entry.1 != name) text)
      (cs.length + 1) cs

/-! ### Tags -/

/-- The attributes of a start tag and whether the tag closes itself. -/
def readAttributes (entities : Entities) : Nat → List Char → Option (List (RawName × String) × Bool × List Char)
  | 0, _ => none
  | fuel + 1, cs =>
    match skipSpace cs with
    | '>' :: rest => some ([], false, rest)
    | '/' :: '>' :: rest => some ([], true, rest)
    | body =>
      if body.length == cs.length then none
      else do
        let (name, rest) ← readName body
        match skipSpace rest with
        | '=' :: rest =>
          let (raw, rest) ← readQuoted (skipSpace rest)
          let value ← readValue (entities.length + 1) entities raw
          let (more, closed, rest) ← readAttributes entities fuel rest
          return ((name, String.ofList value) :: more, closed, rest)
        | _ => none

/-- A start tag, behind its angle bracket. -/
def readStartTag (entities : Entities) (cs : List Char) : Option (Token × List Char) := do
  let (name, rest) ← readName cs
  let (attributes, closed, rest) ← readAttributes entities (rest.length + 1) rest
  return (.startTag name attributes closed, rest)

/-- An end tag, behind its slash. -/
def readEndTag (cs : List Char) : Option (Token × List Char) := do
  let (name, rest) ← readName cs
  match skipSpace rest with
  | '>' :: rest => return (.endTag name, rest)
  | _ => none

/-! ### Comments, instructions and sections -/

/-- A text without characters that a document may not hold, with line ends unified. -/
def cleaned? (cs : List Char) : Option (List Char) :=
  if cs.all isAllowed then some (Text.unifyNewlines cs) else none

/-- A comment, behind its opening mark. -/
def readComment (cs : List Char) : Option (Token × List Char) := do
  let (body, rest) ← splitAtPiece? ['-', '-'] cs
  match rest with
  | '>' :: rest => return (.comment (String.ofList (← cleaned? body)), rest)
  | _ => none

/-- Whether the target of an instruction is kept for the standard. -/
def isReservedTarget (target : String) : Bool := target.toList.map Char.toLower == ['x', 'm', 'l']

/-- An instruction, behind its opening mark. -/
def readInstruction (cs : List Char) : Option (Token × List Char) := do
  let (target, rest) ← readNcName cs
  if isReservedTarget target then none
  else match rest with
    | '?' :: '>' :: rest => return (.instruction target none, rest)
    | c :: _ =>
      if isSpace c then
        let (body, rest) ← splitAtPiece? ['?', '>'] (skipSpace rest)
        return (.instruction target (some (String.ofList (← cleaned? body))), rest)
      else none
    | [] => none

/-! ### Character data -/

/-- Characters of the quick part of character data. -/
def isQuick (c : Char) : Bool := c == '\t' || c == '\n' || (32 ≤ c.toNat && c.toNat < 128)

/-- What a text that follows character data begins with. -/
def Follow.of : List Char → Follow
  | '<' :: '/' :: _ => .endTag
  | '<' :: _ => .markup
  | '\r' :: _ => .carriageReturn
  | _ => .other

/-- A part of character data, unless it is empty. -/
def dataToken (cs : List Char) (follow : Follow) : List Token :=
  if cs.isEmpty then [] else [.data cs follow]

/-- Divides a run of character data, given the text behind it. A quick part ends at a carriage
    return or at a character outside ASCII. A line end of two characters begins the next quick part
    if one follows; everything else is taken to the end of the run. -/
def splitData (after : List Char) : Nat → List Char → List Token
  | 0, _ => []
  | fuel + 1, run =>
    let quick := run.takeWhile isQuick
    match run.dropWhile isQuick with
    | [] => dataToken quick (Follow.of after)
    | '\r' :: '\n' :: rest =>
      let goesOn := match rest with
        | c :: _ => isQuick c
        | [] => !after.isEmpty
      dataToken quick .carriageReturn ++ (if goesOn then splitData after fuel ('\n' :: rest)
          else dataToken (Text.unifyNewlines ('\n' :: rest)) (Follow.of after))
    | rest =>
      dataToken quick (Follow.of rest) ++ dataToken (Text.unifyNewlines rest) (Follow.of after)

/-- Whether the character belongs to a run of character data. -/
def isData (c : Char) : Bool := c != '<' && c != '&'

def readData (cs : List Char) : Option (List Token × List Char) :=
  let run := cs.takeWhile isData
  let after := cs.dropWhile isData
  if run.all isAllowed && !Text.hasPiece [']', ']', '>'] run then
    some (splitData after (run.length + 1) run, after)
  else none

/-! ### The row of tokens -/

/-- The tokens with which a text begins; at least one character is consumed. -/
def readTokens (entities : Entities) (expand : String → Option (List Token)) :
    List Char → Option (List Token × List Char)
  | '<' :: '/' :: rest => (readEndTag rest).map fun (token, rest) => ([token], rest)
  | '<' :: '!' :: '-' :: '-' :: rest => (readComment rest).map fun (token, rest) => ([token], rest)
  | '<' :: '!' :: '[' :: 'C' :: 'D' :: 'A' :: 'T' :: 'A' :: '[' :: rest => do
    let (body, rest) ← splitAtPiece? [']', ']', '>'] rest
    return ([.verbatim (← cleaned? body)], rest)
  | '<' :: '?' :: rest => (readInstruction rest).map fun (token, rest) => ([token], rest)
  | '<' :: rest => (readStartTag entities rest).map fun (token, rest) => ([token], rest)
  | '&' :: rest => do
    let (reference, rest) ← readReference rest
    match reference with
    | .character c => return ([.verbatim [c]], rest)
    | .entity name => return (← expand name, rest)
  | cs => readData cs

def readAll (entities : Entities) (expand : String → Option (List Token)) : Nat → List Char → Option (List Token)
  | 0, _ => none
  | _ + 1, [] => some []
  | fuel + 1, c :: rest => do
    let (front, rest) ← readTokens entities expand (c :: rest)
    let back ← readAll entities expand fuel rest
    return front ++ back

def nesting (depth : Option Nat) (token : Token) : Option Nat :=
  match depth, token with
  | some d, .startTag _ _ false => some (d + 1)
  | some (d + 1), .endTag _ => some d
  | some 0, .endTag _ => none
  | depth, _ => depth

/-- Whether every element that the tokens open is closed by them. -/
def isBalanced (tokens : List Token) : Bool := tokens.foldl nesting (some 0) == some 0

/-- The tokens of a text; entities may nest as deep as there are entities. -/
def tokenize : Nat → Entities → List Char → Option (List Token)
  | 0, _, _ => none
  | depth + 1, entities, cs =>
    readAll entities
      (fun name => (entities.lookup name).bind fun text =>
        (tokenize depth (entities.filter fun entry => entry.1 != name) text).filter isBalanced)
      (cs.length + 1) cs

end ProcessForge.Xml
