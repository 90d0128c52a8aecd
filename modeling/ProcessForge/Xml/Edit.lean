import ProcessForge.Xml.Draft
import ProcessForge.Xml.Namespaces

/-! Edits of one element, as data. An element that goes away takes the texts right behind it with it. -/

namespace ProcessForge.Xml

/-- A change of an element. -/
inductive Edit where
  /-- Writes an attribute. -/
  | set (label : Label) (value : String)
  /-- Writes an attribute that is missing. -/
  | setMissing (label : Label) (value : String)
  /-- Drops an attribute in no namespace. -/
  | drop (stem : String)
  /-- Replaces the text in front of the first child. -/
  | setText (s : String)
  /-- Removes all children with a label. -/
  | clear (label : Label)
  /-- Removes all children, comments and instructions. -/
  | clearAll
  /-- Adds a child at the end. -/
  | append (draft : Draft)
  /-- Adds a child at the end, unless one with its label is there. -/
  | ensure (draft : Draft)
  /-- Adds a child at the beginning, unless one with its label is there. -/
  | ensureFirst (draft : Draft)
  /-- Adds a child in front of the first child with a label, for the first of the labels that a child
      has; at the end if there is none. -/
  | place (draft : Draft) (anchors : List Label)
  /-- Adds copies of elements of another document and of the texts behind them. -/
  | graft (nodes : List Node)
  /-- Changes the first child with a label. -/
  | within (label : Label) (edits : List Edit)
  deriving Repr, Inhabited

/-! ### Contents -/

def dropTexts (content : List Node) : List Node := content.dropWhile Node.isText

def Node.is (label : Label) : Node → Bool
  | .element tag _ => tag.is label
  | _ => false

/-- Removes the nodes of a class, except texts, and the texts right behind each of them. `gone` says that
    the node before was removed. -/
def removeNodes (p : Node → Bool) (gone : Bool) : List Node → List Node
  | [] => []
  | .text s :: rest =>
    if gone then removeNodes p true rest else .text s :: removeNodes p false rest
  | node :: rest =>
    if p node then removeNodes p true rest else node :: removeNodes p false rest

/-- Puts a node in front of the first one of a class; at the end if there is none. -/
def insertBefore (p : Node → Bool) (new : Node) : List Node → List Node
  | [] => [new]
  | node :: rest => if p node then new :: node :: rest else node :: insertBefore p new rest

/-- Puts a node in front of the child with a number; texts are not counted. -/
def insertAtChild? (new : Node) : Nat → List Node → Option (List Node)
  | _, [] => none
  | number, .text s :: rest => (insertAtChild? new number rest).map (.text s :: ·)
  | 0, node :: rest => some (new :: node :: rest)
  | number + 1, node :: rest => (insertAtChild? new number rest).map (node :: ·)

def firstAnchor? (content : List Node) (anchors : List Label) : Option Label :=
  anchors.find? fun label => content.any (Node.is label)

/-- Puts a node in front of its anchor; at the end if there is none. -/
def placeNode (anchors : List Label) (new : Node) (content : List Node) : List Node :=
  match firstAnchor? content anchors with
  | some label => insertBefore (Node.is label) new content
  | none => content ++ [new]

/-- Replaces the texts with which a content begins by one text. -/
def setLeadingText (s : String) (content : List Node) : List Node := .text s :: dropTexts content

/-- Whether a child with the label of a draft is missing. -/
def lacks (content : List Node) (draft : Draft) : Bool := !draft.label?.any fun label => content.any (Node.is label)

/-- The first child with a label, between the nodes before and after it. -/
def splitAtChild? (label : Label) : List Node → Option (List Node × Tag × List Node × List Node)
  | [] => none
  | .element tag content :: rest =>
    if tag.is label then some ([], tag, content, rest)
    else (splitAtChild? label rest).map fun (before, found) =>
      (.element tag content :: before, found)
  | node :: rest => (splitAtChild? label rest).map fun (before, found) => (node :: before, found)

/-! ### Application -/

/-- Writes an attribute with the short forms in scope. -/
def writeAttribute (outer : Scope) (tag : Tag) (label : Label) (value : String) : StateM Supply Tag :=
  Draft.writeValue outer tag (label, .text value)

/-- Copies of foreign nodes, fitted into a scope. -/
def graftAll (scope : Scope) : List Node → StateM Supply (List Node)
  | [] => return []
  | .element tag content :: rest => do
    let node ← fun supply =>
      let (e, coined) := (Element.selfContained ⟨tag, content⟩).rebind scope supply.coined
      (e.node, { supply with coined := coined })
    let rest ← graftAll scope rest
    return node :: rest
  | node :: rest => return node :: (← graftAll scope rest)

mutual

/-- Changes an element that has the given surroundings. -/
def Edit.apply (outer : Scope) (tag : Tag) (content : List Node) : Edit → StateM Supply (Tag × List Node)
  | .set label value => do return (← writeAttribute outer tag label value, content)
  | .setMissing label value => do
    if (tag.value? label).isSome then return (tag, content)
    return (← writeAttribute outer tag label value, content)
  | .drop stem => return (tag.drop stem, content)
  | .setText s => return (tag, setLeadingText s content)
  | .clear label => return (tag, removeNodes (Node.is label) false content)
  | .clearAll => return (tag, removeNodes (fun _ => true) false content)
  | .append draft => do return (tag, content ++ [← draft.settle (tag.layer :: outer)])
  | .ensure draft => do
    if lacks content draft then return (tag, content ++ [← draft.settle (tag.layer :: outer)])
    return (tag, content)
  | .ensureFirst draft => do
    if lacks content draft then
      let new ← draft.settleFirst (tag.layer :: outer)
      return (tag, insertBefore (fun node => !node.isText) new content)
    return (tag, content)
  | .place draft anchors => do
    let new ← draft.settle (tag.layer :: outer)
    return (tag, placeNode anchors new content)
  | .graft nodes => do return (tag, content ++ (← graftAll (tag.layer :: outer) nodes))
  | .within label edits => do
    match splitAtChild? label content with
    | none => return (tag, content)
    | some (before, childTag, childContent, after) =>
      let (childTag, childContent) ← applyEdits (tag.layer :: outer) childTag childContent edits
      return (tag, before ++ .element childTag childContent :: after)

def applyEdits (outer : Scope) (tag : Tag) (content : List Node) : List Edit → StateM Supply (Tag × List Node)
  | [] => return (tag, content)
  | edit :: rest => do
    let (tag, content) ← edit.apply outer tag content
    applyEdits outer tag content rest

end

def Edit.isOfTag : Edit → Bool
  | .set .. | .setMissing .. | .drop _ => true
  | _ => false

/-! ### Edits that stop -/

mutual

/-- What can be carried out of an edit, and whether that is all of it. A child that cannot be finished
    stays where it was begun, at the end. -/
def Edit.cut : Edit → List Edit × Bool
  | .set label value =>
    if isAllowedText value then ([.set label value], true) else ([], false)
  | .setMissing label value =>
    if isAllowedText value then ([.setMissing label value], true) else ([], false)
  | .setText s => if isAllowedText s then ([.setText s], true) else ([], false)
  | .append draft => let (draft, whole) := draft.cut
    ([.append draft], whole)
  | .ensure draft => let (draft, whole) := draft.cut
    ([.ensure draft], whole)
  | .ensureFirst draft => let (draft, whole) := draft.cut
    ([.ensureFirst draft], whole)
  | .place draft anchors => let (draft, whole) := draft.cut
    ([if whole then .place draft anchors else .append draft], whole)
  | .within label edits => let (edits, whole) := cutEdits edits
    ([.within label edits], whole)
  | .drop stem => ([.drop stem], true)
  | .clear label => ([.clear label], true)
  | .clearAll => ([.clearAll], true)
  | .graft nodes => ([.graft nodes], true)

def cutEdits : List Edit → List Edit × Bool
  | [] => ([], true)
  | edit :: rest =>
    let (first, whole) := edit.cut
    if whole then
      let (rest, whole) := cutEdits rest
      (first ++ rest, whole)
    else (first, false)

end

end ProcessForge.Xml
