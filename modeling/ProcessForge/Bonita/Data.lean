import ProcessForge.Bonita.Diagram
import ProcessForge.Defaults
import ProcessForge.Process.Model

/-! Business objects of the pool: one variable for every data object of the model that has a name and a
    type. -/

namespace ProcessForge.Bonita

open Xml

/-- Variables and their types; the first type of a name counts. -/
def dataVariables (m : Model) : OrderedMap String :=
  m.allDataObjects.foldl (fun found object =>
    let name := Text.trim (object.variableName.getD "")
    let type := Text.trim (object.typeName.getD "")
    if name.isEmpty || type.isEmpty then found else found.putNew name type) []

def variableDraft (typeId name type : String) : Draft :=
  piece "data" "process:BusinessObjectData" [("name", some name), ("dataType", some typeId),
    ("className", some (Defaults.modelClass type))] [
    piece "defaultValue" "expression:Expression" [
      ("name", some ""), ("content", some ""), ("interpreter", some "GROOVY"),
      ("type", some "TYPE_READ_ONLY_SCRIPT"), ("returnType", some "java.lang.Object")] []]

def existingData (pool : Element) : List String :=
  (pool.elements.filter fun e => e.tag.is (.plain "data")).filterMap fun e => e.tag.get? "name"

/-- Declares the variables that the pool does not have. -/
def planData (m : Model) (d : Document) : Planning Unit := do
  let declared := dataVariables m
  if !declared.isEmpty then
    match businessTypeId? d with
    | none => Planning.note .missingBusinessType
    | some typeId =>
      match pool? d with
      | none => throw .unusableValue
      | some pool =>
        let existing := existingData pool.element
        declared.forM fun (name, type) =>
          if existing.contains name then return
          else Planning.edit pool [.append (variableDraft typeId name type)]

end ProcessForge.Bonita
