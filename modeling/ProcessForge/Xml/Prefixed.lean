import ProcessForge.Bench

/-! Attributes whose names come from a configuration. A name with a colon uses the namespaces in scope; a
    name may also carry its namespace in braces. -/

namespace ProcessForge.Xml

/-- The label that a name with a namespace in braces spells. -/
def Label.ofBraced? (name : String) : Option Label :=
  let label : Option Label := match name.toList with
    | '\x7b' :: rest =>
      (Text.splitFirst? '\x7d' rest).map fun (uri, stem) =>
        ⟨if uri.isEmpty then none else some (String.ofList uri), String.ofList stem⟩
    | cs => some (.plain (String.ofList cs))
  label.filter fun label => isAllowedText name && isNcName label.stem

def setBraced (place : Place) (name value : String) : Planning Unit :=
  match Label.ofBraced? name with
  | some label => Planning.edit place [.set label value]
  | none => throw .forbiddenText

/-- The namespace that a short form has at a place. -/
def Place.space? (place : Place) (short : String) : Option Namespace :=
  if short == "xml" then none
  else Scope.bound? (place.element.tag.layer :: place.outer) (some short)

/-- Writes an attribute with a short form in its name. One that is not known is reported and left out;
    says whether the attribute was written. -/
def setPrefixed (place : Place) (name value : String) : Planning Bool := do
  match Text.splitFirst? ':' name.toList with
  | none =>
    setBraced place name value
    return true
  | some (short, stem) =>
    let short := String.ofList short
    match place.space? short with
    | none =>
      Planning.note (.unknownShort short name)
      return false
    | some space =>
      setBraced place (Label.braced ⟨some space.uri, String.ofList stem⟩) value
      return true

end ProcessForge.Xml
