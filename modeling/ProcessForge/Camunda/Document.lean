import ProcessForge.Defaults
import ProcessForge.Enrichment
import ProcessForge.Process.Reader
import ProcessForge.Xml.Prefixed
import ProcessForge.Xml.Printer

/-! Process documents for Camunda. What the model says about lanes, nodes and flows is written to the
    elements with their ids, in seven rounds. -/

namespace ProcessForge.Camunda

open Xml Process

/-! ### Names -/

/-- Namespace of extension attributes and elements. -/
def extensionUri : String := "http://camunda.org/schema/1.0/bpmn"

/-- Namespace of attributes for the modelling program. -/
def modelerUri : String := "http://camunda.org/schema/modeler/1.0"

def instanceUri : String := "http://www.w3.org/2001/XMLSchema-instance"

def spaces : List Namespace := [⟨some "bpmn", bpmnUri⟩, ⟨some "bpmndi", "http://www.omg.org/spec/BPMN/20100524/DI"⟩,
  ⟨some "camunda", extensionUri⟩,
  ⟨some "dc", "http://www.omg.org/spec/DD/20100524/DC"⟩,
  ⟨some "di", "http://www.omg.org/spec/DD/20100524/DI"⟩,
  ⟨some "xsi", instanceUri⟩,
  ⟨some "modeler", modelerUri⟩]

def extension (stem : String) : Label := ⟨some extensionUri, stem⟩

def placesOf (d : Document) (stem : String) : List Place :=
  d.root.places.filter fun place => place.element.tag.is (bpmn stem)

/-- Places of the elements with a name, each with what the model has under its id. -/
def matched {α : Type} (d : Document) (stem : String) (find : String → Option α) : List (Place × α) :=
  (placesOf d stem).filterMap fun place =>
    ((place.element.tag.get? "id").bind find).map fun found => (place, found)

/-- Writes an attribute unless its value is missing or empty. -/
def setFilled (stem : String) (value : Option String) : List Edit :=
  match filled? value with
  | some value => [.set (extension stem) value]
  | none => []

/-! ### Rounds -/

def planLanes (m : Model) (d : Document) : Planning Unit :=
  (matched d "lane" m.lane?).forM fun (place, lane) => do
    lane.vendorAttributes.forM fun (name, value) => discard (setPrefixed place name value)
    Planning.edit place (setFilled "assignee" lane.actor)

def planUserTasks (m : Model) (d : Document) : Planning Unit :=
  (matched d "userTask" m.node?).forM fun (place, n) =>
    if n.kind == .userTask then
      Planning.edit place (setFilled "assignee" n.actor ++ setFilled "formKey" n.formKey)
    else return

/-- Whether a node takes a vendor attribute over. Form keys are written with the forms. -/
def takesOver (name : String) : Bool := Enrichment.isFor "camunda" name && name != "camunda:formKey"

/-- Vendor attributes of nodes, kind by kind. -/
def planVendorAttributes (m : Model) (d : Document) : Planning Unit :=
  NodeKind.all.forM fun kind =>
    (matched d kind.tagName m.node?).forM fun (place, n) =>
      n.vendorAttributes.forM fun (name, value) =>
        if takesOver name then discard (setPrefixed place name value) else return

def parameter (name value : String) : Draft :=
  .element (extension "inputParameter") [(.plain "name", .text name)] [.text value]

/-- Sets a delegate and adds its parameters; those without a value are left out. -/
def delegateEdits (delegate : String) (parameters : List (String × Option String)) : List Edit :=
  let drafts := parameters.filterMap fun (name, value) => (filled? value).map (parameter name)
  [.set (extension "delegateExpression") delegate,
    .within (bpmn "extensionElements") [.ensure (.element (extension "inputOutput") [] []),
      .within (extension "inputOutput") (drafts.map Edit.append)]]

/-- Delegates of service tasks for e-mails and calls. Both share their parameters, and the delegate for
    calls wins. -/
def planDelegates (m : Model) (d : Document) : Planning Unit :=
  (matched d "serviceTask" m.node?).forM fun (place, n) => do
    let hasCall := Enrichment.isFilled n.restFile
    if n.hasEmail || hasCall then
      let email := if n.hasEmail then
        delegateEdits "$\x7bsendEmailDelegate\x7d" [("configJson", n.emailFile), ("templateFtl", n.emailTemplate)]
        else []
      let call := if hasCall then
        delegateEdits "$\x7brestCallDelegate\x7d" [("restCallConfig", n.restFile)]
        else []
      Planning.edit place ([.ensureFirst (.element (bpmn "extensionElements") [] []),
        .within (bpmn "extensionElements") [.clear (extension "inputOutput")]] ++ email ++ call)

def planDecisions (m : Model) (d : Document) : Planning Unit :=
  (matched d "businessRuleTask" m.node?).forM fun (place, n) =>
    if Enrichment.isFilled n.decision || Enrichment.isFilled n.resultVariable then
      Planning.edit place (setFilled "decisionRef" n.decision ++ setFilled "resultVariable" n.resultVariable
          ++ [.set (extension "mapDecisionResult") "singleEntry"])
    else return

/-- All flows of a model by id; of several the last one counts. -/
def flowsById (m : Model) : OrderedMap SequenceFlow := OrderedMap.ofList (m.processes.flatMap Process.flows)

def planFlows (m : Model) (d : Document) : Planning Unit :=
  (matched d "sequenceFlow" (flowsById m).value?).forM fun (place, flow) =>
    let condition := flow.resolved.getD ""
    if Text.isBlankText condition then return
    else Planning.edit place [.ensure (.element (bpmn "conditionExpression")
        [(⟨some instanceUri, "type"⟩, .text "bpmn:tFormalExpression")] []),
      .within (bpmn "conditionExpression") [.setText condition]]

/-- Attributes of the document and of its processes. -/
def planDefinitions (d : Document) : Planning Unit := do
  d.root.places.head?.forM fun place => Planning.edit place [.set (.plain "exporter") Defaults.exporter,
    .set (.plain "exporterVersion") Defaults.exporterVersion,
    .set ⟨some modelerUri, "executionPlatform"⟩ Defaults.platform,
    .set ⟨some modelerUri, "executionPlatformVersion"⟩ Defaults.platformVersion,
    .setMissing (.plain "targetNamespace") Defaults.targetNamespace]
  (placesOf d "process").forM fun place => Planning.edit place [.setMissing (.plain "isExecutable") "true",
    .setMissing (extension "historyTimeToLive") Defaults.historyTimeToLive]

/-! ### The document -/

def rounds (m : Model) : BenchWork Unit := do
  Bench.round (planLanes m)
  Bench.round (planUserTasks m)
  Bench.round (planVendorAttributes m)
  Bench.round (planDelegates m)
  Bench.round (planDecisions m)
  Bench.round (planFlows m)
  Bench.round planDefinitions

/-- Writes a model to the document it was read from. -/
def generate (m : Model) (skeleton : Document) : Work Document := fun notices =>
  let document := Document.ensureNamespaces { skeleton with coined := 0 } spaces
  let (result, bench) := (rounds m).run { document := document, notices := notices }
  (result.map fun _ => bench.document, bench.notices)

end ProcessForge.Camunda
