import ProcessForge.Decision.Reader
import ProcessForge.Defaults
import ProcessForge.Expression.Dialect
import ProcessForge.Work
import ProcessForge.Xml.Namespaces
import ProcessForge.Xml.Printer
import ProcessForge.Xml.Visit

/-! Decision documents for the two engines. Interpolations are replaced by paths in attributes, in the
    text at the start of an element and in the text right behind one. One engine also wants its own
    attributes on decisions and on tested columns. -/

namespace ProcessForge.Decision

open Xml

/-! ### Texts -/

def mayInterpolate (s : String) : Bool := Text.contains s "$\x7b"

/-- Changes the values of attributes. One that changes is written anew. -/
def rewriteTag (rewrite : String → String) (outer : Scope) (e : Element) : StateM Nat Tag :=
  e.tag.attributes.foldlM (fun tag a => fun coined =>
    if mayInterpolate a.value then tag.setIn outer coined a.name.label (rewrite a.value)
    else (tag, coined)) e.tag

/-- The nodes of texts that stand side by side. Those that change become one text. -/
def rewriteTexts (rewrite : String → String) (changes : Bool) (texts : List String) : List Node :=
  let whole := String.join texts
  if changes && mayInterpolate whole then [.text (rewrite whole)] else texts.map Node.text

/-- Changes the texts of a content. The texts met since the last other node are collected in `texts`;
    they change if that node was an element or the content begins with them. -/
def rewriteContent (rewrite : String → String) (changes : Bool) (texts : List String) : List Node → List Node
  | [] => rewriteTexts rewrite changes texts
  | .text s :: rest => rewriteContent rewrite changes (texts ++ [s]) rest
  | node :: rest =>
    rewriteTexts rewrite changes texts ++ node :: rewriteContent rewrite node.element?.isSome [] rest

/-- Changes the attributes and texts of all elements. -/
def rewriteDocument (rewrite : String → String) (d : Document) : Document :=
  let leave (_ : Scope) (_ : Tag) (content : List Node) : StateM Nat (List Node) :=
    return rewriteContent rewrite true [] content
  let (root, coined) := Id.run (StateT.run (d.root.visit (rewriteTag rewrite) leave) d.coined)
  { d with root := root, coined := coined }

/-! ### Attributes of one engine -/

def camundaSpace : Namespace := ⟨some "camunda", "http://camunda.org/schema/1.0/dmn"⟩

/-- The variable of a tested column: the text of its expression. -/
def inputVariable (e : Element) : String :=
  match e.elements.find? fun d => d.tag.name.stem == "inputExpression" with
  | none => ""
  | some expression =>
    match expression.elements.find? fun d => d.tag.name.stem == "text" with
    | none => ""
    | some text => Text.trim (Expression.camundaDecisionText text.fullText)

def setCamunda (outer : Scope) (tag : Tag) (stem value : String) : StateM Nat Tag := fun coined =>
  tag.setIn outer coined ⟨some camundaSpace.uri, stem⟩ value

/-- Gives decisions and tested columns their attributes. -/
def annotate (outer : Scope) (e : Element) : StateM Nat Tag :=
  match e.tag.name.stem with
  | "decision" => setCamunda outer e.tag "historyTimeToLive" Defaults.historyTimeToLive
  | "input" =>
    let name := inputVariable e
    if name.isEmpty then return e.tag else setCamunda outer e.tag "inputVariable" name
  | _ => return e.tag

/-! ### Documents -/

def camundaDocument (d : Document) : Document :=
  let d := (rewriteDocument Expression.camundaDecisionText d).ensureNamespaces [camundaSpace]
  let (root, coined) := Id.run (StateT.run (d.root.visitTags annotate) d.coined)
  { d with root := root, coined := coined }

def bonitaDocument (d : Document) : Document := rewriteDocument Expression.bonitaDecisionText d

def document : Dialect → Document → Document
  | .camunda => camundaDocument
  | .bonita => bonitaDocument

/-- Decision files for an engine. One that cannot be read is reported and left out. A text may be the path of
    another file; `opened?` says what that file holds. -/
def files (dialect : Dialect) (texts : OrderedMap String) (opened? : String → Option ByteArray := fun _ => none) :
    Work (OrderedMap String) :=
  match texts with
  | [] => return []
  | (file, content) :: rest => do
    match Xml.parseSource? opened? content with
    | none =>
      Work.note (.unreadableDecision file)
      files dialect rest opened?
    | some d =>
      let rest ← files dialect rest opened?
      return (file, (document dialect d).render) :: rest

end ProcessForge.Decision
