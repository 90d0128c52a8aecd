/-! Trees of XML documents. An element has a tag, which holds its name, the namespaces it declares and
    its attributes, and a content of nodes. A name keeps the short form with which it is written next
    to the namespace it stands for, since documents are written back with their own short forms. -/

namespace ProcessForge.Xml

/-- A namespace with the short form that a document gives it; no short form for a default one. -/
structure Namespace where
  short : Option String
  uri : String
  deriving DecidableEq, Repr, Inhabited

/-- A name and the namespace it belongs to. -/
structure Name where
  space : Option Namespace
  stem : String
  deriving DecidableEq, Repr, Inhabited

def Name.plain (stem : String) : Name := ⟨none, stem⟩

def Name.uri? (name : Name) : Option String := name.space.map Namespace.uri

/-- What a query looks for: a namespace URI, if any, and the rest of the name. -/
structure Label where
  uri : Option String
  stem : String
  deriving DecidableEq, Repr, Inhabited

def Label.plain (stem : String) : Label := ⟨none, stem⟩

/-- The label of a name: short forms do not matter. -/
def Name.label (name : Name) : Label := ⟨name.uri?, name.stem⟩

def Name.written (name : Name) : String :=
  match name.space with
  | some ⟨some short, _⟩ => short ++ ":" ++ name.stem
  | _ => name.stem

def Label.braced (label : Label) : String :=
  match label.uri with
  | some uri => "\x7b" ++ uri ++ "\x7d" ++ label.stem
  | none => label.stem

structure Attribute where
  name : Name
  value : String
  deriving DecidableEq, Repr, Inhabited

/-- What stands in a start tag. -/
structure Tag where
  name : Name
  declared : List Namespace := []
  attributes : List Attribute := []
  deriving DecidableEq, Repr, Inhabited

/-- Part of the content of an element. -/
inductive Node where
  | element (tag : Tag) (content : List Node)
  | text (s : String)
  | comment (s : String)
  | instruction (target : String) (body : Option String)
  deriving Repr, Inhabited

/-- An element by itself. -/
structure Element where
  tag : Tag
  content : List Node := []
  deriving Repr, Inhabited

def Element.node (e : Element) : Node := .element e.tag e.content

def Node.element? : Node → Option Element
  | .element tag content => some ⟨tag, content⟩
  | _ => none

def Node.isText : Node → Bool
  | .text _ => true
  | _ => false

/-- The document type: name of the root, external identifiers and declarations as written. -/
structure Doctype where
  name : String
  publicId : Option String := none
  systemId : Option String := none
  declarations : List String := []
  deriving DecidableEq, Repr, Inhabited

/-- A document. The preface stands in front of the document type, and `coined` counts the short forms
    that were made up for its namespaces. -/
structure Document where
  version : String := "1.0"
  preface : List Node := []
  doctype : Option Doctype := none
  before : List Node := []
  root : Element
  after : List Node := []
  coined : Nat := 0
  deriving Repr, Inhabited

/-! ### Reading a tag -/

def Tag.value? (tag : Tag) (label : Label) : Option String :=
  (tag.attributes.find? fun a => a.name.label == label).map Attribute.value

def Tag.get? (tag : Tag) (stem : String) : Option String := tag.value? (.plain stem)

def Tag.is (tag : Tag) (label : Label) : Bool := tag.name.label == label

/-! ### Reading content -/

def elementsAmong (content : List Node) : List Element := content.filterMap Node.element?

def Element.children (e : Element) : List Element := elementsAmong e.content

def Element.find? (e : Element) (label : Label) : Option Element := e.children.find? fun child => child.tag.is label

def Element.findAll (e : Element) (label : Label) : List Element := e.children.filter fun child => child.tag.is label

mutual

/-- The element at a node and all elements below it, in document order. -/
def Node.elements : Node → List Element
  | .element tag content => ⟨tag, content⟩ :: elementsBelow content
  | _ => []

/-- All elements of a content, at any depth, in document order. -/
def elementsBelow : List Node → List Element
  | [] => []
  | node :: rest => node.elements ++ elementsBelow rest

end

/-- The element and all elements below it, in document order. -/
def Element.elements (e : Element) : List Element := e :: elementsBelow e.content

def Element.descendants (e : Element) (label : Label) : List Element :=
  (elementsBelow e.content).filter fun d => d.tag.is label

/-- The texts with which a content begins, as one text; nothing if it begins otherwise. -/
def leadingText? : List Node → Option String
  | .text s :: rest => some (s ++ (leadingText? rest).getD "")
  | _ => none

def Element.text? (e : Element) : Option String := leadingText? e.content

mutual

/-- Text of a node and everything below it, without comments and instructions. -/
def Node.fullText : Node → String
  | .text s => s
  | .element _ content => fullTextOf content
  | _ => ""

def fullTextOf : List Node → String
  | [] => ""
  | node :: rest => node.fullText ++ fullTextOf rest

end

def Element.fullText (e : Element) : String := fullTextOf e.content

end ProcessForge.Xml
