import ProcessForge.Bonita.Artifacts
import ProcessForge.Camunda.Artifacts
import ProcessForge.ClassModel.Diagram
import ProcessForge.Configuration.Reader
import ProcessForge.FileTree
import ProcessForge.Organization.Reader

/-! Compilation of a model directory: its files are read, the model is enriched, the files for the engine
    are generated and written to the output directory. -/

namespace ProcessForge.Compilation

open Xml

/-- Whether the target is Bonita; every other target is Camunda. -/
def isBonita (target : String) : Bool := target == "bonita"

/-! ### Reading -/

def readDocument (t : FileTree) (path : List String) : Except Failure Document :=
  match (t.bytes? path).bind (parseBytes true) with
  | some d => .ok d
  | none => .error .malformedDocument

def firstWith? (t : FileTree) (directory : List String) (ending : String) : Option String :=
  (t.names directory).find? fun name => name.endsWith ending

/-- The ending of a file name from its last point on; none if the point is its first or last character. -/
def endingOf (name : String) : String :=
  let cs := name.toList
  let after := Text.afterLast '.' cs
  if after.isEmpty || cs.length ≤ after.length + 1 then "" else "." ++ String.ofList after

/-- Texts of the files in a directory with an ending, in any letter case. -/
def readTexts (t : FileTree) (directory : List String) (ending : String) : Except Failure (OrderedMap String) :=
  let names := (t.names directory).filter fun name =>
    Text.lower (endingOf name) == ending && (t.bytes? (directory ++ [name])).isSome
  names.mapM fun name => do
    let content ← t.text (directory ++ [name])
    return (name, content)

/-- The configuration, an empty one if there is no file. -/
def readConfiguration (t : FileTree) (directory : List String) : Work Configuration := do
  let path := directory ++ ["config.json"]
  if t.isPresent path then
    let text ← Work.ofExcept (t.text path)
    Work.ofExcept (Configuration.ofText text)
  else
    Work.note (.configurationMissing "config.json")
    return {}

/-- The organization, if there is a file. -/
def readOrganization (t : FileTree) (directory : List String) : Work (Option Organization) := do
  let path := directory ++ ["organization.archimate"]
  if t.isPresent path then
    let d ← Work.ofExcept (readDocument t path)
    let organization := Organization.ofDocument d
    Work.note (.organizationRead organization.roles.length)
    return some organization
  else return none

/-- The class model, if there is a file. -/
def readClasses (t : FileTree) (directory : List String) : Work (Option ClassModel) := do
  let path := directory ++ ["class-model.puml"]
  if t.isPresent path then
    let text ← Work.ofExcept (t.text path)
    let classes ← Work.ofExcept (ClassModel.ofDiagram text)
    Work.ofExcept classes.checkFieldNames
    Work.note (.classesRead classes.classes.length)
    return some classes
  else return none

/-- The index of forms, an empty one if there is no file. -/
def readFormIndex (t : FileTree) (directory : List String) : Work Json := do
  let path := directory ++ ["forms", "index.json"]
  if t.isPresent path then
    let text ← Work.ofExcept (t.text path)
    match Json.parse text with
    | .ok v => return v
    | .error .malformed => throw .malformedFormIndex
    | .error .hugeNumber => throw .hugeNumber
  else return .obj []

/-- The document that is written to, under its file name. -/
structure Skeleton where
  file : String
  document : Document

def readDiagram (t : FileTree) (directory : List String) (shown : String) : Work Skeleton := do
  match firstWith? t directory ".proc" with
  | none => throw (.missingDiagramFile shown)
  | some file =>
    let document ← Work.ofExcept (readDocument t (directory ++ [file]))
    return ⟨file, document⟩

/-- Everything in a model directory, and the skeleton for the target. -/
def readSources (target : String) (t : FileTree) (directory : List String) (shown : String) :
    Work (Sources × Skeleton) := do
  Work.note .parsing
  match firstWith? t directory ".bpmn" with
  | none => throw (.missingProcessFile shown)
  | some file =>
    let document ← Work.ofExcept (readDocument t (directory ++ [file]))
    let model ← Work.ofExcept (Model.ofDocument document)
    Work.note (.modelRead file model.processes.length)
    let config ← readConfiguration t directory
    let organization ← readOrganization t directory
    let classes ← readClasses t directory
    let formIndex ← readFormIndex t directory
    let skeleton ←
      if isBonita target then readDiagram t directory shown else pure ⟨file, document⟩
    let decisions ← Work.ofExcept (readTexts t (directory ++ ["dmn"]) ".dmn")
    let calls ← Work.ofExcept (readTexts t (directory ++ ["rest"]) ".json")
    let emails ← Work.ofExcept (readTexts t (directory ++ ["email"]) ".json")
    let templates ← Work.ofExcept (readTexts t (directory ++ ["email"]) ".ftl")
    return ({
      model := model, config := config, organization := organization, classes := classes
      decisions := decisions, calls := calls, emails := emails, templates := templates
      formIndex := formIndex }, skeleton)

/-! ### Writing -/

def emit (target : String) (skeleton : Skeleton) (s : Sources) (opened? : String → Option ByteArray) :
    Work Artifacts :=
  if isBonita target then
    Bonita.artifacts skeleton.file (Bonita.firstNewId skeleton.document) skeleton.document s opened?
  else Camunda.artifacts skeleton.file skeleton.document s opened?

/-- The files for a target, from those of a model directory. Nothing is written yet. -/
def prepare (target modelDirectory : String) (t : FileTree) : Work Artifacts := do
  let (sources, skeleton) ← readSources target t (FileTree.pathOf modelDirectory) (FileTree.showPath modelDirectory)
  let sources ← sources.enrich target
  emit target skeleton sources t.opened?

/-- The files that a run works on, and its reports so far. -/
structure World where
  files : FileTree
  notices : List Notice := []

/-- A stage that reads files and reports. -/
def reading {α : Type} (stage : FileTree → Work α) : WorkOn World α := fun world =>
  let outcome := ExceptT.run (stage world.files) world.notices
  (outcome.1, { world with notices := outcome.2 })

/-- A change of the files. One that fails leaves them as they are. -/
def changing (change : FileTree → Except Failure FileTree) : WorkOn World Unit := fun world =>
  match change world.files with
  | .ok files => (.ok (), { world with files := files })
  | .error failure => (.error failure, world)

/-- Writes files one after the other. Those before a failure stay. -/
def saveAll (directory : List String) (artifacts : Artifacts) : WorkOn World Unit :=
  artifacts.forM fun (name, content) => changing fun t => t.save (FileTree.follow directory name) content

def exportFiles (target output : String) (artifacts : Artifacts) : WorkOn World Unit := do
  reading fun _ => Work.note .exporting
  changing fun t => t.makeDirectory (FileTree.pathOf output)
  saveAll (FileTree.pathOf output) artifacts
  reading fun _ => do
    Work.note .exported
    Work.note (.exportTarget target)
    Work.note (.exportDirectory (FileTree.showPath output))
    artifacts.forM fun (name, _) => Work.note (.exportedFile name)

/-- The directory that a model is read from. -/
def modelOf (given : String) : String := Defaults.orUsual Defaults.modelDirectory given

/-- The directory that files are written to. -/
def outputOf (given : String) : String := Defaults.orUsual Defaults.outputDirectory given

/-- All stages, one after the other. -/
def workflow (target modelDirectory output : String) : WorkOn World Artifacts := do
  let artifacts ← reading (prepare target (modelOf modelDirectory))
  exportFiles target (outputOf output) artifacts
  return artifacts

/-- The generated files and the tree that they are written to. -/
def compile (target modelDirectory output : String) (t : FileTree) : Work (Artifacts × FileTree) := fun notices =>
  let outcome := ExceptT.run (workflow target modelDirectory output) ⟨t, notices⟩
  (outcome.1.map fun artifacts => (artifacts, outcome.2.files), outcome.2.notices)

end ProcessForge.Compilation
