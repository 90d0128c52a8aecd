import ProcessForge.Xml.Encoding
import ProcessForge.Xml.Prolog

/-! Reader of documents. A fold over the tokens keeps the elements that are open and builds the tree.
    It resolves the namespaces of names, and it drops blank text that only lays the document out: a
    blank part in front of a tag goes away unless the element is already known to have text, or holds
    nothing else and ends there, or asks for its blanks to be kept. -/

namespace ProcessForge.Xml

/-- The namespace of the short form that is always bound. -/
def xmlUri : String := "http://www.w3.org/XML/1998/namespace"

/-- The namespace of declarations, which no name may use. -/
def xmlnsUri : String := "http://www.w3.org/2000/xmlns/"

/-- What an element does with blank text. -/
inductive Spacing where
  | undecided
  | layout
  | preserved
  | mixed
  deriving DecidableEq, Repr, Inhabited

/-- An open element. The content is in reverse order, the bindings are nearest first. -/
structure Frame where
  raw : RawName
  tag : Tag
  bindings : List Namespace
  spacing : Spacing
  content : List Node := []

/-- The tree built so far: open elements, innermost first, and what lies outside of the root. -/
structure Builder where
  frames : List Frame := []
  before : List Node := []
  root : Option Element := none
  after : List Node := []

/-! ### Names -/

/-- The namespace that a short form stands for. An empty URI stands for none. -/
def resolveShort (bindings : List Namespace) (short : Option String) : Option (Option Namespace) :=
  if short == some "xml" then some (some ⟨short, xmlUri⟩)
  else match bindings.find? fun binding => binding.short == short with
    | some binding => if binding.uri == "" then some none else some (some binding)
    | none => if short.isNone then some none else none

def isUriChar (c : Char) : Bool := c.isAlphanum || "-._~:/?#[]@!$&'()*+,;=%".toList.contains c

/-- The namespace that an attribute declares, if it declares one; a wrong declaration fails. -/
def declaration? (name : RawName) (value : String) : Option (Option Namespace) :=
  if name.short.isNone && name.stem == "xmlns" then
    if value == xmlUri || value == xmlnsUri || !value.toList.all isUriChar then none
    else some (some ⟨none, value⟩)
  else if name.short == some "xmlns" then
    if name.stem == "xml" then if value == xmlUri then some none else none
    else if name.stem == "xmlns" || value == "" || value == xmlUri || value == xmlnsUri
      || !value.toList.all isUriChar then none
    else some (some ⟨some name.stem, value⟩)
  else some none

def isDeclaration (name : RawName) : Bool := name.short == some "xmlns" || (name.short.isNone && name.stem == "xmlns")

def declarations? (attributes : List (RawName × String)) : Option (List Namespace) :=
  (attributes.mapM fun (name, value) => declaration? name value).map (List.filterMap id)

/-- The attributes that declare nothing, with their namespaces. -/
def resolveAttributes? (bindings : List Namespace) (attributes : List (RawName × String)) : Option (List Attribute) :=
  (attributes.filter fun (name, _) => !isDeclaration name).mapM fun (name, value) =>
    match name.short with
    | none => some ⟨⟨none, name.stem⟩, value⟩
    | some short =>
      (resolveShort bindings (some short)).bind fun space => some ⟨⟨space, name.stem⟩, value⟩

def allDistinct {α : Type} [BEq α] : List α → Bool
  | [] => true
  | a :: rest => !rest.contains a && allDistinct rest

/-- The tag of an element and the bindings inside it. -/
def resolveTag? (bindings : List Namespace) (name : RawName)
    (attributes : List (RawName × String)) : Option (Tag × List Namespace) := do
  let declared ← declarations? attributes
  let inner := declared ++ bindings
  let space ← resolveShort inner name.short
  let resolved ← resolveAttributes? inner attributes
  if allDistinct (attributes.map Prod.fst) && allDistinct (resolved.map fun a => a.name.label) then
    return (⟨⟨space, name.stem⟩, declared, resolved⟩, inner)
  else none

/-! ### Content -/

/-- Adds text behind a reversed content; adjacent texts become one. -/
def pushText (s : String) : List Node → List Node
  | .text t :: rest => .text (t ++ s) :: rest
  | content => .text s :: content

/-- Whether a part of character data only lays out the element. -/
def isLayout (frame : Frame) (cs : List Char) (follow : Follow) : Bool :=
  (frame.spacing == .undecided || frame.spacing == .layout) && cs.all isSpace && follow != .other
    && !(frame.content.isEmpty && follow == .endTag)
    && !(frame.content.head?.any Node.isText)
    && !(frame.content.getLast?.any Node.isText)

def Frame.addData (dropLayout : Bool) (frame : Frame) (cs : List Char) (follow : Follow) : Frame :=
  if dropLayout && isLayout frame cs follow then frame
  else { frame with
    content := pushText (String.ofList cs) frame.content
    spacing := if frame.spacing == .undecided then .mixed else frame.spacing }

/-- What a new element does with blanks: its own setting, or that of the element around it. -/
def innerSpacing (outer : Spacing) (tag : Tag) : Spacing :=
  match tag.value? ⟨some xmlUri, "space"⟩ with
  | some "default" => .layout
  | some "preserve" => .preserved
  | _ => if outer == .mixed then .undecided else outer

def Builder.addNode (b : Builder) (node : Node) : Builder :=
  match b.frames with
  | frame :: rest => { b with frames := { frame with content := node :: frame.content } :: rest }
  | [] =>
    if b.root.isNone then { b with before := node :: b.before }
    else { b with after := node :: b.after }

def Builder.addElement (b : Builder) (e : Element) : Builder :=
  match b.frames with
  | [] => { b with root := some e }
  | _ => b.addNode e.node

def Builder.step (dropLayout : Bool) (b : Builder) (token : Token) : Option Builder :=
  match token, b.frames with
  | .comment s, _ => some (b.addNode (.comment s))
  | .instruction target body, _ => some (b.addNode (.instruction target body))
  | .data cs _, [] => if cs.all isSpace then some b else none
  | .data cs follow, frame :: rest =>
    some { b with frames := frame.addData dropLayout cs follow :: rest }
  | .verbatim _, [] => none
  | .verbatim cs, frame :: rest =>
    let content := pushText (String.ofList cs) frame.content
    some { b with frames := { frame with content := content } :: rest }
  | .startTag name attributes closed, frames => do
    if frames.isEmpty && b.root.isSome then none
    let bindings := (frames.head?.map Frame.bindings).getD []
    let outer := (frames.head?.map Frame.spacing).getD .undecided
    let (tag, inner) ← resolveTag? bindings name attributes
    if closed then return b.addElement ⟨tag, []⟩
    else return { b with frames := ⟨name, tag, inner, innerSpacing outer tag, []⟩ :: frames }
  | .endTag _, [] => none
  | .endTag name, frame :: rest =>
    if frame.raw == name then
      some (Builder.addElement { b with frames := rest } ⟨frame.tag, frame.content.reverse⟩)
    else none

def build? (dropLayout : Bool) (tokens : List Token) : Option Builder := tokens.foldlM (Builder.step dropLayout) {}

/-! ### Documents -/

def parseChars (dropLayout : Bool) (cs : List Char) : Option Document := do
  let (declaration, rest) ← readDeclaration cs
  let (leading, rest) ← readMisc (rest.length + 1) rest
  let (doctype, entities, rest) ←
    match Text.dropPrefix? "<!DOCTYPE".toList rest with
    | some rest => (readDoctype rest).map fun (doctype, entities, rest) =>
      (some doctype, entities, rest)
    | none => some (none, [], rest)
  let tokens ← tokenize (entities.length + 1) entities rest
  let built ← build? dropLayout tokens
  let root ← built.root
  if built.frames.isEmpty then
    return {
      version := declaration.version
      preface := leading
      doctype := doctype
      before := built.before.reverse
      root := root
      after := built.after.reverse }
  else none

/-- The encoding that the declaration of a document names. -/
def declaredEncoding? (cs : List Char) : Option Encoding := do
  let (declaration, _) ← readDeclaration cs
  match declaration.encoding with
  | none => return .utf8
  | some name => Encoding.ofName? name

def parseBytes (dropLayout : Bool) (bytes : ByteArray) : Option Document :=
  match detect? bytes with
  | some (encoding, mark) =>
    (encoding.decode? (bytes.extract mark bytes.size)).bind (parseChars dropLayout)
  | none => do
    let encoding ← declaredEncoding? (bytes.toList.map fun b => Char.ofNat b.toNat)
    let cs ← encoding.decode? bytes
    parseChars dropLayout cs

/-- The document of a text, without the blanks that lay it out. Anything that does not begin with an
    angle bracket, blanks aside, is the path of a file and no document here. -/
def parse? (s : String) : Option Document :=
  match s.toList.dropWhile Text.isBlank with
  | '<' :: _ =>
    match declaredEncoding? s.toList with
    | some .utf8 => parseChars true s.toList
    | some encoding => (encoding.decode? s.toUTF8).bind (parseChars true)
    | none => none
  | _ => none

/-- The document of a text or of the file that the text is the path of. -/
def parseSource? (opened? : String → Option ByteArray) (s : String) : Option Document :=
  match s.toList.dropWhile Text.isBlank with
  | '<' :: _ => parse? s
  | _ => (opened? s).bind (parseBytes true)

end ProcessForge.Xml
