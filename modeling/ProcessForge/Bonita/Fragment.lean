import ProcessForge.Bonita.Diagram
import ProcessForge.Enrichment

/-! Fragments of markup that vendor attributes add to elements of a diagram. A fragment replaces the
    children with the names that it has. -/

namespace ProcessForge.Bonita

open Xml

/-- A fragment inside of an element that declares the short forms of diagrams. -/
def wrapFragment (fragment : String) : String :=
  let declarations := spaces.map fun space =>
    "xmlns:" ++ space.short.getD "" ++ "=\"" ++ space.uri ++ "\""
  "<wrapper " ++ " ".intercalate declarations ++ ">" ++ fragment ++ "</wrapper>"

/-- The content of a fragment; its blanks count. -/
def parseFragment? (fragment : String) : Option (List Node) :=
  (parseChars false (wrapFragment fragment).toList).map fun d => d.root.content

/-- Elements of a content and the texts right behind them. `following` says that an element or such a text
    comes before. -/
def graftable (following : Bool) : List Node → List Node
  | [] => []
  | .text s :: rest => if following then .text s :: graftable true rest else graftable false rest
  | .element tag content :: rest => .element tag content :: graftable true rest
  | _ :: rest => graftable false rest

def fragmentEdits (content : List Node) : List Edit :=
  let labels := (elementsAmong content).map fun e => e.tag.name.label
  labels.map Edit.clear ++ [.graft (graftable false content)]

/-- Adds the fragments of the model's nodes. One that cannot be read is reported. -/
def planFragments (m : Model) (d : Document) : Planning Unit := do
  let elements := elementsByName d none
  m.allNodes.forM fun n =>
    match elements.value? (nameKey n.name) with
    | none => return
    | some place => n.vendorAttributes.forM fun (key, value) =>
        if Enrichment.isFor "bonita" key && !Text.isBlankText value then
          match parseFragment? value with
          | none => Planning.note (.unreadableFragment key)
          | some content => Planning.edit place (fragmentEdits content)
        else return

end ProcessForge.Bonita
