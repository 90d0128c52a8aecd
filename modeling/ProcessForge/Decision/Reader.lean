import ProcessForge.Decision.Table
import ProcessForge.Xml.Reader

/-! Reader of decision documents. The first decision table of a document counts, in whatever namespace
    its elements are. -/

namespace ProcessForge.Decision

open Xml

/-- First child with a name, in any namespace. -/
def childNamed? (e : Element) (stem : String) : Option Element :=
  e.children.find? fun child => child.tag.name.stem == stem

/-- The text of a cell: that of its text child, else its own. -/
def cellText (e : Element) : String := Text.trim ((childNamed? e "text").getD e).fullText

def readInput (e : Element) : Input :=
  match childNamed? e "inputExpression" with
  | some expression => { expression := cellText expression, type := expression.tag.get? "typeRef" }
  | none => {}

/-- A rule; of several results the last one counts. -/
def readRule (e : Element) : Rule :=
  e.children.foldl (fun rule cell =>
    if cell.tag.name.stem == "inputEntry" then
      { rule with entries := rule.entries ++ [cellText cell] }
    else if cell.tag.name.stem == "outputEntry" then { rule with result := some (cellText cell) }
    else rule) {}

/-- Adds what a child of the table says; of several result columns the first one counts. -/
def readPart (table : Table) (e : Element) : Table :=
  match e.tag.name.stem with
  | "input" => { table with inputs := table.inputs ++ [readInput e] }
  | "output" =>
    match table.output with
    | some _ => table
    | none =>
      { table with output := some { name := e.tag.get? "name", type := e.tag.get? "typeRef" } }
  | "rule" => { table with rules := table.rules ++ [readRule e] }
  | _ => table

/-- The table that an element describes, for the decision around it. -/
def readTable (parent : Option Tag) (e : Element) : Table :=
  e.children.foldl readPart { decision := parent.bind fun tag => tag.get? "id" }

mutual

/-- The first element with a name, at a node or below, and the tag around it. -/
def firstNamed? (stem : String) (parent : Option Tag) : Node → Option (Option Tag × Element)
  | .element tag content =>
    if tag.name.stem == stem then some (parent, ⟨tag, content⟩)
    else firstNamedIn? stem (some tag) content
  | _ => none

def firstNamedIn? (stem : String) (parent : Option Tag) : List Node → Option (Option Tag × Element)
  | [] => none
  | node :: rest => (firstNamed? stem parent node).or (firstNamedIn? stem parent rest)

end

def ofDocument? (d : Document) : Option Table :=
  (firstNamed? "decisionTable" none d.root.node).map fun (parent, e) => readTable parent e

end ProcessForge.Decision
