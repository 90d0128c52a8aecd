import ProcessForge.Bench
import ProcessForge.Bonita.Vocabulary
import ProcessForge.OrderedMap

/-! What a diagram has: elements by name, the pool, the type of business objects, and the business
    objects that are declared. -/

namespace ProcessForge.Bonita

open Xml

/-- A business object that a diagram declares. -/
structure BusinessObject where
  className : String
  dataType : String
  deriving DecidableEq, Repr, Inhabited

/-- Places of the elements with a name in no namespace. -/
def placesOf (d : Document) (stem : String) : List Place :=
  d.root.places.filter fun place => place.element.tag.is (.plain stem)

/-- Flow elements by name, of some kinds only if they are given; the first one of a name counts. -/
def elementsByName (d : Document) (kinds : Option (List String)) : OrderedMap Place :=
  (placesOf d "elements").foldl (fun found place =>
    let key := nameKey (place.element.tag.get? "name")
    if key.isEmpty || !kinds.all (fun ks => ks.contains (kindOf place.element.tag)) then found
    else found.putNew key place) []

def pool? (d : Document) : Option Place :=
  (placesOf d "elements").find? fun place => kindOf place.element.tag == "process:Pool"

def businessTypeId? (d : Document) : Option String :=
  (placesOf d "datatypes").findSome? fun place =>
    let tag := place.element.tag
    if kindOf tag == "process:BusinessObjectType" then
      (tag.value? idLabel).filter (· != "")
    else none

def trimmed? (tag : Tag) (stem : String) : Option String := ((tag.get? stem).map Text.trim).filter (· != "")

/-- The business object that an element declares, under its variable. -/
def businessObject? (tag : Tag) : Option (String × BusinessObject) := do
  if kindOf tag != "process:BusinessObjectData" then none
  else
    let name ← trimmed? tag "name"
    let dataType ← trimmed? tag "dataType"
    let className ← trimmed? tag "className"
    return (name, { className := className, dataType := dataType })

/-- Business objects by variable; the first one of a name counts. -/
def businessObjects (d : Document) : OrderedMap BusinessObject :=
  (placesOf d "data").foldl (fun found place =>
    match businessObject? place.element.tag with
    | some (name, object) => found.putNew name object
    | none => found) []

end ProcessForge.Bonita
