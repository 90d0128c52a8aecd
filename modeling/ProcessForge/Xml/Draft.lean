import ProcessForge.Xml.Scope

/-! Drafts of new elements. A draft says which elements, attributes and texts to write; short forms of
    namespaces and new ids are settled when it is put into a document. Elements are written in document
    order, attributes before content. A value that XML forbids stops the writing, and what was written
    before it stays. -/

namespace ProcessForge.Xml

/-- The value of an attribute in a draft: a text, or an id that the document does not have yet. -/
inductive DraftValue where
  | text (s : String)
  | newId
  deriving DecidableEq, Repr, Inhabited

/-- A new element or text. -/
inductive Draft where
  | element (label : Label) (attributes : List (Label × DraftValue)) (content : List Draft)
  | text (s : String)
  deriving Repr, Inhabited

/-- Numbers for what is made up: the next id, and the count of short forms. -/
structure Supply where
  nextId : Nat := 1
  coined : Nat := 0
  deriving DecidableEq, Repr, Inhabited

def padNumber (width n : Nat) : String :=
  let digits := toString n
  String.ofList (List.replicate (width - digits.length) '0') ++ digits

def idMark : String := "_GENID"

def madeUpId (n : Nat) : String := idMark ++ padNumber 17 n

def DraftValue.isWritable : DraftValue → Bool
  | text s => isAllowedText s
  | newId => true

namespace Draft

mutual

/-- The part of a draft that can be written, and whether that is all of it. -/
def cut : Draft → Draft × Bool
  | .text s => (.text s, isAllowedText s)
  | .element label attributes content =>
    if attributes.all fun a => a.2.isWritable then
      let (content, whole) := cutAll content
      (.element label attributes content, whole)
    else (.element label (attributes.takeWhile fun a => a.2.isWritable) [], false)

/-- The drafts that can be written, up to the first that cannot. -/
def cutAll : List Draft → List Draft × Bool
  | [] => ([], true)
  | .text s :: rest =>
    if isAllowedText s then
      let (rest, whole) := cutAll rest
      (.text s :: rest, whole)
    else ([], false)
  | .element label attributes content :: rest =>
    let (first, whole) := cut (.element label attributes content)
    if whole then
      let (rest, whole) := cutAll rest
      (first :: rest, whole)
    else ([first], false)

end

/-- A tag for a new element. `search` is where a declaration of its namespace is looked for. -/
def openTag (search : Scope) (label : Label) : StateM Supply Tag := fun supply =>
  match label.uri with
  | none => ({ name := .plain label.stem }, supply)
  | some uri =>
    let (space, added, coined) := search.claim uri none false supply.coined
    ({ name := ⟨some space, label.stem⟩, declared := added }, { supply with coined := coined })

def valueText : DraftValue → StateM Supply String
  | .text s => return s
  | .newId => fun supply => (madeUpId supply.nextId, { supply with nextId := supply.nextId + 1 })

def writeValue (outer : Scope) (tag : Tag) (a : Label × DraftValue) : StateM Supply Tag := do
  let value ← valueText a.2
  fun supply =>
    let (tag, coined) := tag.setIn outer supply.coined a.1 value
    (tag, { supply with coined := coined })

mutual

def settle (outer : Scope) : Draft → StateM Supply Node
  | .text s => return .text s
  | .element label attributes content => do
    let tag ← openTag (⟨[], none⟩ :: outer) label
    let tag ← attributes.foldlM (writeValue outer) tag
    let content ← settleAll (tag.layer :: outer) content
    return .element tag content

def settleAll (outer : Scope) : List Draft → StateM Supply (List Node)
  | [] => return []
  | draft :: rest => do
    let node ← draft.settle outer
    let rest ← settleAll outer rest
    return node :: rest

end

/-- The element that a draft becomes as the first child of the innermost element of the scope. -/
def settleFirst (scope : Scope) : Draft → StateM Supply Node
  | .text s => return .text s
  | .element label attributes content => do
    let tag ← openTag scope label
    let tag ← attributes.foldlM (writeValue scope) tag
    let content ← settleAll (tag.layer :: scope) content
    return .element tag content

def label? : Draft → Option Label
  | .element label _ _ => some label
  | .text _ => none

end Draft

end ProcessForge.Xml
