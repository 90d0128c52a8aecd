import ProcessForge.Xml.Token
import ProcessForge.Xml.Tree

/-! What stands in front of the root of a document: the declaration with version and encoding, and
    the document type with its declarations of entities. -/

namespace ProcessForge.Xml

/-- The declaration at the top of a document. -/
structure Declaration where
  version : String := "1.0"
  encoding : Option String := none
  deriving DecidableEq, Repr, Inhabited

/-- Versions that are read: one digit, a point and digits, with a one in front. -/
def isReadableVersion (cs : List Char) : Bool :=
  match cs with
  | '1' :: '.' :: digits => !digits.isEmpty && digits.all Char.isDigit
  | _ => false

def isEncodingName (cs : List Char) : Bool :=
  match cs with
  | c :: rest => c.isAlpha && rest.all fun c => c.isAlphanum || c == '.' || c == '_' || c == '-'
  | [] => false

/-- An equals sign between blanks and a quoted text. -/
def readSetting (cs : List Char) : Option (List Char × List Char) :=
  match skipSpace cs with
  | '=' :: rest => readQuoted (skipSpace rest)
  | _ => none

/-- A named setting of the declaration, which blanks must precede. -/
def readNamedSetting? (name : String) (cs : List Char) : Option (List Char × List Char) :=
  let body := skipSpace cs
  if body.length == cs.length then none
  else (Text.dropPrefix? name.toList body).bind readSetting

def settingFollows (name : String) (cs : List Char) : Bool := name.toList.isPrefixOf (skipSpace cs)

/-- The declaration, behind its opening mark. -/
def readDeclarationBody (cs : List Char) : Option (Declaration × List Char) := do
  let (version, rest) ← readNamedSetting? "version" cs
  if !isReadableVersion version then none
  let (encoding, rest) ←
    if settingFollows "encoding" rest then
      (readNamedSetting? "encoding" rest).bind fun (name, rest) =>
        if isEncodingName name then some (some (String.ofList name), rest) else none
    else some (none, rest)
  let rest ←
    if settingFollows "standalone" rest then
      (readNamedSetting? "standalone" rest).bind fun (value, rest) =>
        if value == ['y', 'e', 's'] || value == ['n', 'o'] then some rest else none
    else some rest
  match skipSpace rest with
  | '?' :: '>' :: rest => return (⟨String.ofList version, encoding⟩, rest)
  | _ => none

/-- The declaration of a document, if it has one. -/
def readDeclaration (cs : List Char) : Option (Declaration × List Char) :=
  match cs with
  | '<' :: '?' :: 'x' :: 'm' :: 'l' :: c :: rest =>
    if isSpace c then readDeclarationBody (c :: rest) else some (⟨"1.0", none⟩, cs)
  | _ => some (⟨"1.0", none⟩, cs)

/-! ### Comments and instructions before the root -/

/-- Comments and instructions with which a text begins, and the text behind them. -/
def readMisc : Nat → List Char → Option (List Node × List Char)
  | 0, _ => none
  | fuel + 1, cs =>
    match skipSpace cs with
    | '<' :: '!' :: '-' :: '-' :: rest => do
      let (token, rest) ← readComment rest
      let (nodes, rest) ← readMisc fuel rest
      match token with
      | .comment s => return (.comment s :: nodes, rest)
      | _ => none
    | '<' :: '?' :: rest => do
      let (token, rest) ← readInstruction rest
      let (nodes, rest) ← readMisc fuel rest
      match token with
      | .instruction target body => return (.instruction target body :: nodes, rest)
      | _ => none
    | rest => some ([], rest)

/-! ### The document type -/

/-- Resolves the numeric references of the text of an entity and leaves all others. -/
def resolveNumeric : Nat → List Char → Option (List Char)
  | 0, _ => none
  | _ + 1, [] => some []
  | fuel + 1, '&' :: '#' :: rest => do
    let (reference, rest) ← readReference ('#' :: rest)
    match reference with
    | .character c => (resolveNumeric fuel rest).map (c :: ·)
    | .entity _ => none
  | fuel + 1, c :: rest => (resolveNumeric fuel rest).map (c :: ·)

def requoted (cs : List Char) : List Char :=
  if cs.contains '"' then
    if cs.contains '\'' then '"' :: Text.replaceAll ['"'] "&quot;".toList cs ++ ['"']
    else '\'' :: cs ++ ['\'']
  else '"' :: cs ++ ['"']

/-- What one declaration of a document type adds: its text, and an entity. -/
structure Declared where
  written : Option String
  entity : Option (String × List Char) := none

/-- The end of a declaration, behind which nothing but blanks may stand. -/
def closeDeclaration? (cs : List Char) : Option (List Char) :=
  match skipSpace cs with
  | '>' :: rest => some rest
  | _ => none

/-- An entity declaration, behind its keyword. -/
def readEntity (cs : List Char) : Option (Declared × List Char) := do
  let (name, rest) ← readNcName (skipSpace cs)
  let (value, rest) ← readQuoted (skipSpace rest)
  let value ← cleaned? value
  let rest ← closeDeclaration? rest
  let text ← resolveNumeric (value.length + 1) value
  let written := "<!ENTITY " ++ name ++ " " ++ String.ofList (requoted value) ++ ">\n"
  return (⟨some written, some (name, text)⟩, rest)

def readDeclared (cs : List Char) : Option (Declared × List Char) :=
  match Text.dropPrefix? "<!ENTITY".toList cs with
  | some rest => readEntity rest
  | none =>
    match cs with
    | '<' :: '!' :: '-' :: '-' :: rest => do
      let (token, rest) ← readComment rest
      match token with
      | .comment s => return (⟨some ("<!--" ++ s ++ "-->"), none⟩, rest)
      | _ => none
    | '<' :: '!' :: c :: rest =>
      if c.isAlpha then do
        let (body, rest) ← Text.splitFirst? '>' (c :: rest)
        let body ← cleaned? body
        return (⟨some ("<!" ++ String.ofList body ++ ">\n"), none⟩, rest)
      else none
    | _ => none

/-- The declarations of a document type up to the closing bracket. -/
def readDeclaredAll : Nat → List Char → Option (List Declared × List Char)
  | 0, _ => none
  | fuel + 1, cs =>
    match skipSpace cs with
    | ']' :: rest => some ([], rest)
    | cs => do
      let (first, rest) ← readDeclared cs
      let (more, rest) ← readDeclaredAll fuel rest
      return (first :: more, rest)

def readExternal (cs : List Char) : Option (Option String × Option String × List Char) :=
  match Text.dropPrefix? "SYSTEM".toList cs with
  | some rest => do
    let (system, rest) ← readQuoted (skipSpace rest)
    return (none, some (String.ofList system), rest)
  | none =>
    match Text.dropPrefix? "PUBLIC".toList cs with
    | some rest => do
      let (pub, rest) ← readQuoted (skipSpace rest)
      let (system, rest) ← readQuoted (skipSpace rest)
      return (some (String.ofList pub), some (String.ofList system), rest)
    | none => some (none, none, cs)

/-- The document type, behind its keyword. The first declaration of an entity counts. -/
def readDoctype (cs : List Char) : Option (Doctype × Entities × List Char) := do
  let (name, rest) ← readName (skipSpace cs)
  let written := match name.short with
    | some short => short ++ ":" ++ name.stem
    | none => name.stem
  let (publicId, systemId, rest) ← readExternal (skipSpace rest)
  let (declared, rest) ← match skipSpace rest with
    | '[' :: rest => readDeclaredAll (rest.length + 1) rest
    | rest => some ([], rest)
  let rest ← closeDeclaration? rest
  return (⟨written, publicId, systemId, declared.filterMap Declared.written⟩, declared.filterMap Declared.entity, rest)

end ProcessForge.Xml
