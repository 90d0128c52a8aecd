import ProcessForge.Camunda.Document
import ProcessForge.Decision.Document
import ProcessForge.Descriptor
import ProcessForge.Sources

/-! The files for Camunda: the process document, descriptors, templates and decisions. -/

namespace ProcessForge.Camunda

open Xml

/-- The process document with a model written to it. -/
def processText (m : Model) (skeleton : Document) : Work String := do
  let m := Enrichment.nameDecisions (Enrichment.resolveFlows .camunda m)
  let document ← generate m skeleton
  return document.render (some false)

/-- All files. The process document has the name of the file it was read from. -/
def artifacts (file : String) (skeleton : Document) (s : Sources)
    (opened? : String → Option ByteArray := fun _ => none) : Work Artifacts := do
  Work.note (.generating "Camunda")
  let main ← processText s.model skeleton
  let calls ← Descriptor.resolveFiles .camunda s.calls
  let emails ← Descriptor.resolveFiles .camunda s.emails
  let decisions ← Decision.files .camunda s.decisions opened?
  let files : Artifacts := [(file, main)]
  let files := Artifacts.addAll files "rest" calls
  let files := Artifacts.addAll files "email" emails
  let files := Artifacts.addAll files "email" s.templates
  let files := Artifacts.addAll files "dmn" decisions
  Work.note (.generated files.length)
  return files

end ProcessForge.Camunda
