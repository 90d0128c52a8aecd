import ProcessForge.ClassModel.Model
import ProcessForge.Enrichment
import ProcessForge.Work

/-! Everything that a model directory holds besides the documents that are written to. -/

namespace ProcessForge

/-- What was read from a model directory. -/
structure Sources where
  model : Model := {}
  config : Configuration := {}
  organization : Option Organization := none
  classes : Option ClassModel := none
  decisions : OrderedMap String := []
  calls : OrderedMap String := []
  emails : OrderedMap String := []
  templates : OrderedMap String := []
  formIndex : Json := .null
  deriving Inhabited

/-- Applies configuration, organization and global variables. -/
def Sources.enrich (engine : String) (s : Sources) : Work Sources := do
  Work.note .enriching
  let globals := s.config.globals
  Work.note (.variablesApplied globals.length)
  return { s with
    model := Enrichment.enrich engine s.config s.organization s.model
    decisions := Enrichment.substituteInFiles globals s.decisions
    calls := Enrichment.substituteInFiles globals s.calls
    emails := Enrichment.substituteInFiles globals s.emails }

/-- Generated files by name, in order. -/
abbrev Artifacts := OrderedMap String

def Artifacts.addAll (artifacts : Artifacts) (directory : String) (files : OrderedMap String) :
    Artifacts :=
  OrderedMap.putAll artifacts (files.map fun (name, content) => (directory ++ "/" ++ name, content))

end ProcessForge
