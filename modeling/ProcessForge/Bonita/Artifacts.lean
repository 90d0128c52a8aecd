import ProcessForge.Bonita.LocalConfiguration
import ProcessForge.Bonita.Step
import ProcessForge.ClassModel.BusinessModel
import ProcessForge.Decision.Document
import ProcessForge.Descriptor
import ProcessForge.Organization.File
import ProcessForge.Sources

/-! The files for Bonita: the diagram, its configuration, the organization, the business data model and
    decisions. -/

namespace ProcessForge.Bonita

open Xml

/-- What is written to a diagram, with all texts in the dialect of the engine. -/
def content (s : Sources) (opened? : String → Option ByteArray := fun _ => none) : Work Content := do
  let model := Enrichment.resolveFlows .bonita s.model
  let decisions ← Decision.files .bonita s.decisions opened?
  let calls ← Descriptor.resolveFiles .bonita s.calls
  return {
    model := model, classes := s.classes.getD {}, config := s.config, decisions := decisions
    services := { calls := calls, emails := s.emails, templates := s.templates }
    formIndex := s.formIndex }

/-- Adds the organization, if it has roles. -/
def addOrganization (organization : Option Organization) (files : Artifacts) : Work Artifacts :=
  match organization.filter fun o => !o.roles.isEmpty with
  | some o => do
    let text ← Work.ofExcept o.toDocument
    return OrderedMap.put files Organization.fileName text
  | none => do
    Work.note (.organizationSkipped Organization.fileName)
    return files

def addBusinessModel (classes : Option ClassModel) (files : Artifacts) : Work Artifacts :=
  match classes with
  | some classes => do
    let text ← Work.ofExcept classes.businessModel
    return OrderedMap.put files ClassModel.businessModelFile text
  | none => return files

/-- All files. The diagram has the name of its skeleton; its new ids are those from `first` on. -/
def artifacts (file : String) (first : Nat) (skeleton : Document) (s : Sources)
    (opened? : String → Option ByteArray := fun _ => none) : Work Artifacts := do
  Work.note (.generating "Bonita")
  let content ← content s opened?
  let document ← generate content skeleton
  let configuration ← Work.ofExcept (configurationFile document)
  let files : Artifacts := [(file, diagramText first document)]
  let files := OrderedMap.put files configuration (localConfiguration content.model s.organization)
  let files ← addOrganization s.organization files
  let files ← addBusinessModel s.classes files
  let files := Artifacts.addAll files "dmn" content.decisions
  Work.note (.generated files.length)
  return files

end ProcessForge.Bonita
