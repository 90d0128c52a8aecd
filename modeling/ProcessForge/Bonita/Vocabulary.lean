import ProcessForge.Text.Case
import ProcessForge.Xml.Edit

/-! Words of Bonita diagrams. Structural elements are in no namespace, an attribute tells their kind, and
    every element has an id of its own. -/

namespace ProcessForge.Bonita

open Xml

def xmiUri : String := "http://www.omg.org/XMI"

def spaces : List Namespace := [⟨some "xmi", xmiUri⟩, ⟨some "process", "http://www.bonitasoft.org/ns/bpm/process"⟩,
  ⟨some "expression", "http://www.bonitasoft.org/ns/bpm/expression"⟩,
  ⟨some "connectorconfiguration", "http://www.bonitasoft.org/model/connector/configuration"⟩]

def kindLabel : Label := ⟨some xmiUri, "type"⟩

def idLabel : Label := ⟨some xmiUri, "id"⟩

/-- The kind of an element; empty if it has none. -/
def kindOf (tag : Tag) : String := (tag.value? kindLabel).getD ""

/-- The form of a name by which diagrams and models are matched. -/
def nameKey (name : Option String) : String := Text.lower (Text.trim (name.getD ""))

/-- Attributes of a new element. Those without a value are left out. -/
def attributes (pairs : List (String × Option String)) : List (Label × DraftValue) :=
  pairs.filterMap fun (stem, value) => value.map fun v => (.plain stem, .text v)

/-- A new element of a kind with an id of its own. -/
def piece (stem kind : String) (pairs : List (String × Option String)) (content : List Draft) :
    Draft :=
  .element (.plain stem) ((kindLabel, .text kind) :: (idLabel, .newId) :: attributes pairs) content

/-- Children in front of which connectors and operations are placed, the most important first. -/
def anchors : List Label := ["loopCondition", "loopMaximum", "cardinalityExpression", "iteratorExpression",
  "completionCondition", "BoundaryIntermediateEvents", "formMapping", "contract",
  "expectedDuration"].map Label.plain

def userTaskKinds : List String := ["process:Task", "process:UserTask", "process:HumanTask"]

def serviceTaskKinds : List String := ["process:ServiceTask"]

end ProcessForge.Bonita
