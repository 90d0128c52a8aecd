import ProcessForge.Bonita.Diagram
import ProcessForge.Configuration.Model
import ProcessForge.Reference

/-! Forms of user tasks. An index tells the deployed form for the id of a form. -/

namespace ProcessForge.Bonita

open Xml

/-- The id of a form: the words of its file name, each with a capital but the first. -/
def formId (name : String) : String :=
  let spaced := name.toList.map fun c => if c.isAlphanum then c else ' '
  match (Text.words spaced).map String.ofList with
  | [] => "form"
  | head :: rest => Text.uncapitalize head ++ String.join (rest.map Text.capitalize)

/-- Deployed forms by the ids of forms; the last one of an id counts. -/
def deployedForms (index : Json) : Except Failure (OrderedMap String) :=
  match index with
  | .obj members =>
    .ok (OrderedMap.ofList (members.filterMap fun (deployed, v) =>
      v.text?.map fun id => (id, deployed)))
  | v => if v.isBlank then .ok [] else .error .unusableValue

def formMapping (id deployed : String) : Draft :=
  piece "formMapping" "process:FormMapping" [] [
    piece "targetForm" "expression:Expression" [
      ("name", some id), ("content", some deployed), ("type", some "FORM_REFERENCE_TYPE"),
      ("returnTypeFixed", some "true")] []]

def taskFormId? (task : NodeSetting) : Option String :=
  (task.formRef.bind Reference.filePath?).map fun path =>
    formId (Reference.stripExtension (Reference.baseName path))

/-- Links configured user tasks to their deployed forms. -/
def planForms (config : Configuration) (index : Json) (d : Document) : Planning Unit := do
  let forms ← Work.ofExcept (deployedForms index)
  if forms.isEmpty then return
  let tasks := elementsByName d (some userTaskKinds)
  config.tasks.forM fun task =>
    match taskFormId? task with
    | none => return
    | some id =>
      match (forms.value? id).filter (· != "") with
      | none => Planning.note (.missingForm id)
      | some deployed =>
        match tasks.value? (nameKey (some task.name)) with
        | none => return
        | some place => Planning.edit place [.clear (.plain "formMapping"),
            .place (formMapping id deployed) [.plain "contract"]]

end ProcessForge.Bonita
