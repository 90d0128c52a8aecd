import ProcessForge.Failure
import ProcessForge.Xml.Character
import ProcessForge.Xml.Printer

/-! Documents that are made from scratch. -/

namespace ProcessForge.Xml

def tagOf (name : Name) (attributes : List (String × String)) : Tag :=
  { name := name, attributes := attributes.map fun (stem, value) => ⟨.plain stem, value⟩ }

/-- Whether all attribute values and texts of a new element can be written. -/
def Element.isWritable (e : Element) : Bool :=
  e.elements.all fun d =>
    d.tag.attributes.all (fun a => isAllowedText a.value)
      && d.content.all fun node =>
        match node with
        | .text s => isAllowedText s
        | _ => true

/-- The text of a new document; refused if it would hold a character that XML forbids. -/
def Element.write (e : Element) (standalone : Option Bool := none) : Except Failure String :=
  if e.isWritable then .ok (Document.render { root := e } standalone) else .error .forbiddenText

end ProcessForge.Xml
