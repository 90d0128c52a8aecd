import ProcessForge.ClassModel.Model
import ProcessForge.Failure
import ProcessForge.Text.Blank
import ProcessForge.Text.Case
import ProcessForge.Text.Search
import ProcessForge.Text.Word

/-! Reader of class diagrams. Each line is cut at its first apostrophe and trimmed. Outside of blocks a
    line opens a class or an enumeration or states a composition; inside of a class it is a field,
    inside of an enumeration a value. Blocks with the same name add to each other. -/

namespace ProcessForge.ClassModel

/-! ### Lines -/

def significant (line : List Char) : List Char := Text.trimChars (line.takeWhile (· != '\''))

def isFrameLine (line : List Char) : Bool :=
  let small := Text.lowerChars line
  small == "@startuml".toList || small == "@enduml".toList

def skipBlank (cs : List Char) : List Char := cs.dropWhile Text.isBlank

/-- A word: letters, digits and underscores. -/
def readWord? (cs : List Char) : Option (String × List Char) :=
  let word := cs.takeWhile Text.isWord
  if word.isEmpty then none else some (String.ofList word, cs.dropWhile Text.isWord)

/-- A word that begins with an ASCII letter or an underscore. -/
def readIdentifier? (cs : List Char) : Option (String × List Char) :=
  match cs with
  | c :: _ => if c.isAlpha || c == '_' then readWord? cs else none
  | [] => none

def readOpening? (keyword : String) (line : List Char) : Option String := do
  let rest ← Text.dropPrefix? keyword.toList line
  match rest with
  | c :: _ =>
    if Text.isBlank c then
      let (name, rest) ← readWord? (skipBlank rest)
      if skipBlank rest == ['\x7b'] then return name else none
    else none
  | [] => none

/-- A multiplicity in quotes, if there is one, and the blanks behind it. -/
def readMultiplicity (cs : List Char) : Option String × List Char :=
  match Text.dropPrefix? ['"', '1', '"'] cs with
  | some rest => (some "1", skipBlank rest)
  | none =>
    match Text.dropPrefix? "\"many\"".toList cs with
    | some rest => (some "many", skipBlank rest)
    | none => (none, cs)

/-- A composition; a multiplicity that is not written is one. -/
def readComposition? (line : List Char) : Option Composition := do
  let (owner, rest) ← readWord? line
  let (ownerMultiplicity, rest) := readMultiplicity (skipBlank rest)
  let rest ← Text.dropPrefix? ['*', '-', '-'] rest
  let (partMultiplicity, rest) := readMultiplicity (skipBlank rest)
  let (part, rest) ← readWord? rest
  if rest.isEmpty then
    return {
      owner := owner, part := part
      ownerMultiplicity := some (ownerMultiplicity.getD "1")
      partMultiplicity := some (partMultiplicity.getD "1") }
  else none

/-- A field: a name, and behind a colon its type. -/
def readField? (line : List Char) : Option ClassField := do
  let (name, rest) ← readIdentifier? line
  match skipBlank rest with
  | [] => return { name := name }
  | ':' :: rest =>
    let (type, rest) ← readIdentifier? (skipBlank rest)
    if rest.isEmpty then return { name := name, type := some type } else none
  | _ => none

/-- The first word of a line without its commas and semicolons. -/
def firstToken? (line : List Char) : Option String :=
  (Text.words (line.filter fun c => c != ',' && c != ';')).head?.map String.ofList

/-! ### Blocks -/

/-- The block that is open. -/
inductive Block where
  | none
  | ofClass (name : String)
  | ofEnum (name : String)
  deriving DecidableEq, Repr, Inhabited

/-- What was read so far. -/
structure Reading where
  block : Block := .none
  model : ClassModel := {}

/-- Opens a class, which may be known already. -/
def openClass (m : ClassModel) (name : String) : ClassModel :=
  { m with classes := m.classes.putNew name { name := name } }

/-- Opens an enumeration, which may be known already. -/
def openEnum (m : ClassModel) (name : String) : ClassModel := { m with enums := m.enums.putNew name [] }

def addField (m : ClassModel) (owner : String) (field : ClassField) : ClassModel :=
  { m with classes := m.classes.put owner { name := owner, fields := m.fieldsOf owner ++ [field] } }

def addValue (m : ClassModel) (owner value : String) : ClassModel :=
  { m with enums := m.enums.put owner ((m.enums.value? owner).getD [] ++ [value]) }

def step (r : Reading) (line : List Char) : Except Failure Reading :=
  match r.block with
  | .ofClass name =>
    if line == ['\x7d'] then .ok { r with block := .none }
    else match readField? line with
      | some field => .ok { r with model := addField r.model name field }
      | none => .error (.unsupportedField (String.ofList line))
  | .ofEnum name =>
    if line == ['\x7d'] then .ok { r with block := .none }
    else match firstToken? line with
      | some value => .ok { r with model := addValue r.model name value }
      | none => .ok r
  | .none =>
    match readOpening? "class" line with
    | some name => .ok ⟨.ofClass name, openClass r.model name⟩
    | none =>
      match readOpening? "enum" line with
      | some name => .ok ⟨.ofEnum name, openEnum r.model name⟩
      | none =>
        match readComposition? line with
        | some composition =>
          .ok { r with model := { r.model with compositions := r.model.compositions ++ [composition] } }
        | none => .error (.unsupportedLine (String.ofList line))

def significantLines (s : String) : List (List Char) :=
  ((Text.lines s.toList).map significant).filter fun line => !line.isEmpty && !isFrameLine line

def ofDiagram (s : String) : Except Failure ClassModel := do
  let r ← (significantLines s).foldlM step {}
  match r.block with
  | .none => return r.model
  | .ofClass name => .error (.unclosedClass name)
  | .ofEnum name => .error (.unclosedEnum name)

/-! ### Reserved words -/

/-- Words that no field of a generated class may have as its name. -/
def reservedWords : List String := [
  "abstract", "assert", "boolean", "break", "byte", "case", "catch", "char", "class", "const",
  "continue", "default", "do", "double", "else", "enum", "extends", "final", "finally", "float",
  "for", "goto", "if", "implements", "import", "instanceof", "int", "interface", "long", "native",
  "new", "package", "private", "protected", "public", "return", "short", "static", "strictfp",
  "super", "switch", "synchronized", "this", "throw", "throws", "transient", "try", "void",
  "volatile", "while", "true", "false", "null"]

/-- Refuses a model with a field that is named by a reserved word. -/
def checkFieldNames (m : ClassModel) : Except Failure Unit :=
  m.classes.values.forM fun c => c.fields.forM fun field =>
    if reservedWords.contains field.name then .error (.reservedField field.name c.name)
    else .ok ()

end ProcessForge.ClassModel
