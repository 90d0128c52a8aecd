import ProcessForge.Bonita.Expression
import ProcessForge.Decision.Reader
import ProcessForge.Decision.Script
import ProcessForge.Expression.Dialect
import ProcessForge.Process.Model
import ProcessForge.Reference

/-! Business rule tasks: the script of a decision table computes a field of a business object. -/

namespace ProcessForge.Bonita

open Xml

/-- The decision file that a reference names: by its name, with the usual ending, or with other letter
    case. -/
def decisionFile? (ref : Option String) (files : OrderedMap String) : Option String :=
  match ref.filter fun ref => !Text.isBlankText ref with
  | none => none
  | some ref =>
    let path := Text.swapChar '\\' '/' (Reference.filePath (Text.trim ref)).toList
    let name := Reference.baseName (String.ofList path)
    let long := name ++ ".dmn"
    if files.has name then some name
    else if !(Text.lower name).endsWith ".dmn" && files.has long then some long
    else files.keys.find? fun key =>
      Text.lower key == Text.lower name || Text.lower key == Text.lower long

/-- The variable for the result: that of the task, else the name of the result column. -/
def outputVariable? (n : FlowNode) (table : Decision.Table) : Option String :=
  ((n.resultVariable.bind Expression.resultVariable?).filter (· != "")).or
    (((table.output.bind Decision.Output.name).map Text.trim).filter (· != ""))

def outputType (table : Decision.Table) : String := Decision.className (table.output.bind Decision.Output.type)

def decisionDraft (table : Decision.Table) (root field : String) (object : BusinessObject) :
    Draft :=
  let ref := objectRef root (some object.dataType) (some object.className)
  piece "operations" "expression:Operation" [] [
    piece "leftOperand" "expression:Expression" [
      ("name", some root), ("content", some root), ("type", some "TYPE_VARIABLE"),
      ("returnType", some object.className)] [ref],
    piece "rightOperand" "expression:Expression" [
      ("name", some "newScript()"), ("content", some (Decision.script table)),
      ("interpreter", some "GROOVY"), ("type", some "TYPE_READ_ONLY_SCRIPT"),
      ("returnType", some (outputType table))] [ref],
    operator field (outputType table)]

/-- The decision table of a business rule task, if its file has one with columns and rules. A file that
    cannot be read is reported. -/
def readDecision (files : OrderedMap String) (n : FlowNode) : Planning (Option Decision.Table) := do
  match decisionFile? n.decision files with
  | none => return none
  | some file =>
    let content := (files.value? file).getD ""
    if Text.isBlankText content then return none
    match Xml.parse? content with
    | none =>
      Planning.note (.unreadableTable file)
      return none
    | some d => return (Decision.ofDocument? d).filter fun table =>
        !table.inputs.isEmpty && !table.rules.isEmpty

def addDecision (elements : OrderedMap Place) (objects : OrderedMap BusinessObject)
    (n : FlowNode) (table : Decision.Table) : Planning Unit :=
  let found := do
    let path ← outputVariable? n table
    let root ← Decision.rootVariable? path
    let field ← Decision.fieldName? path
    let object ← objects.value? root
    let place ← elements.value? (nameKey n.name)
    return (place, decisionDraft table root field object)
  match found with
  | none => return
  | some (place, draft) =>
    Planning.edit place [.clear (.plain "operations"), .place draft anchors]

def planDecisions (files : OrderedMap String) (m : Model) (d : Document) : Planning Unit := do
  let elements := elementsByName d none
  let objects := businessObjects d
  m.allNodes.forM fun n => do
    if n.kind == .businessRuleTask && !Text.isBlankText (n.name.getD "") then
      match ← readDecision files n with
      | none => return
      | some table => addDecision elements objects n table

def planSendTasks (d : Document) : Planning Unit :=
  (placesOf d "elements").forM fun place =>
    if kindOf place.element.tag == "process:SendTask" then
      Planning.edit place [.set kindLabel "process:Activity", .drop "overrideActorsOfTheLane", .drop "priority"]
    else return

end ProcessForge.Bonita
