import ProcessForge.OrderedMap
import ProcessForge.Organization.Model
import ProcessForge.Xml.Reader

/-! Reader of organization documents. Elements of a document are actors, roles, or assignments of an
    actor to a role. -/

namespace ProcessForge.Organization

open Xml

def typeLabel : Label := ⟨some "http://www.w3.org/2001/XMLSchema-instance", "type"⟩

def typed (elements : List Element) (type : String) : List Element :=
  elements.filter fun e => e.tag.value? typeLabel == some type

/-- The actor that an element describes, under its id. -/
def readActor (e : Element) : String × Actor :=
  let id := (e.tag.get? "id").getD ""
  (id, { id := id, name := (e.tag.get? "name").getD "" })

/-- The role that an element describes, under its id and without actors. -/
def readRole (e : Element) : String × Role :=
  let id := (e.tag.get? "id").getD ""
  (id, { id := id, name := (e.tag.get? "name").getD "" })

def assign (actors : OrderedMap Actor) (roles : OrderedMap Role) (e : Element) : OrderedMap Role :=
  match (e.tag.get? "source").bind actors.value?, e.tag.get? "target" with
  | some actor, some target =>
    match roles.value? target with
    | some role => roles.put target { role with actors := role.actors ++ [actor] }
    | none => roles
  | _, _ => roles

def ofDocument (d : Document) : Organization :=
  let elements := d.root.elements.filter fun e => e.tag.name.stem == "element"
  let actors := OrderedMap.ofList ((typed elements "archimate:BusinessActor").map readActor)
  let roles := OrderedMap.ofList ((typed elements "archimate:BusinessRole").map readRole)
  let assignments := typed elements "archimate:AssignmentRelationship"
  { roles := (assignments.foldl (assign actors) roles).values }

end ProcessForge.Organization
