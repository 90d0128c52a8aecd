import ProcessForge.Duration
import ProcessForge.Process.Label
import ProcessForge.Process.Model
import ProcessForge.Text.Case
import ProcessForge.Xml.Reader

/-! Reader of process documents. Flow nodes are collected kind by kind and in document order within a
    kind; an id that comes again replaces the earlier node and keeps its place. -/

namespace ProcessForge

namespace Process

open Xml

def bpmnUri : String := "http://www.omg.org/spec/BPMN/20100524/MODEL"

/-- A label in the namespace of process documents. -/
def bpmn (stem : String) : Label := ⟨some bpmnUri, stem⟩

def textOf? (e : Option Element) : Option String := (e.bind Element.text?).map Text.trim

/-- An attribute value that is there and not empty. -/
def filled? (value : Option String) : Option String :=
  match value with
  | some "" => none
  | other => other

def readLane (e : Element) : Except Failure Lane :=
  match e.tag.get? "id" with
  | none => .error .laneWithoutId
  | some id =>
    let refs := (e.findAll (bpmn "flowNodeRef")).filterMap fun ref => filled? (textOf? (some ref))
    .ok { id := id, name := e.tag.get? "name", nodeRefs := refs }

/-- The lanes of a process, at any depth of its lane set. -/
def readLaneSet (e : Element) : Except Failure LaneSet := do
  let lanes ← (e.descendants (bpmn "lane")).mapM readLane
  return { id := e.tag.get? "id", lanes := lanes }

def readDataObject (id : String) (e : Element) : DataObject :=
  let label := e.tag.get? "name"
  let (variableName, typeName, stateName) := DataObject.readLabel (label.getD "")
  { id := id, label := label, object := e.tag.get? "dataObjectRef"
    variableName := variableName, typeName := typeName, stateName := stateName }

def readDataInput (e : Element) : DataInput :=
  { id := (e.tag.get? "id").getD ""
    source := textOf? (e.find? (bpmn "sourceRef"))
    target := textOf? (e.find? (bpmn "targetRef")) }

def readDataOutput (e : Element) : DataOutput :=
  { id := (e.tag.get? "id").getD "", target := textOf? (e.find? (bpmn "targetRef")) }

/-- The duration of a timer event; dates and cycles do not count. -/
def readTimer (id : String) (e : Element) : Except Failure (Option String) :=
  let text := (e.find? (bpmn "timerEventDefinition")).bind fun timer =>
    filled? (textOf? (timer.find? (bpmn "timeDuration")))
  match text with
  | none => .ok none
  | some duration =>
    if Duration.isValid duration then .ok (some duration) else .error (.invalidTimer id duration)

def readNode (kind : NodeKind) (id : String) (e : Element) : Except Failure FlowNode := do
  let timer ← if kind.isEvent then readTimer id e else .ok none
  return {
    id := id, kind := kind, name := e.tag.get? "name"
    dataInputs := (e.findAll (bpmn "dataInputAssociation")).map readDataInput
    dataOutputs := (e.findAll (bpmn "dataOutputAssociation")).map readDataOutput
    timer := timer }

def readFlow (id : String) (e : Element) : SequenceFlow :=
  { id := id, name := e.tag.get? "name", source := e.tag.get? "sourceRef"
    target := e.tag.get? "targetRef", expression := textOf? (e.find? (bpmn "conditionExpression")) }

/-- Elements with an id that is not empty, together with it. -/
def identified (es : List Element) : List (String × Element) :=
  es.filterMap fun e => (filled? (e.tag.get? "id")).map fun id => (id, e)

/-- The flow nodes of a process by kind and document order. -/
def readNodes (e : Element) : Except Failure (OrderedMap FlowNode) := do
  let entries ← NodeKind.all.flatMapM fun kind =>
    (identified (e.descendants (bpmn kind.tagName))).mapM fun (id, node) => do
      let node ← readNode kind id node
      return (id, node)
  return OrderedMap.ofList entries

def readProcess (e : Element) : Except Failure Process := do
  match filled? (e.tag.get? "id") with
  | none => .error .processWithoutId
  | some id =>
    let laneSet ← (e.find? (bpmn "laneSet")).mapM readLaneSet
    let nodes ← readNodes e
    let objects := (identified (e.descendants (bpmn "dataObjectReference"))).map
      fun (id, d) => (id, readDataObject id d)
    let flows := (identified (e.descendants (bpmn "sequenceFlow"))).map
      fun (id, f) => (id, readFlow id f)
    return {
      id := id, name := e.tag.get? "name"
      isExecutable := Text.lower ((e.tag.get? "isExecutable").getD "") == "true"
      laneSet := laneSet, nodes := nodes
      dataObjects := OrderedMap.ofList objects, flows := OrderedMap.ofList flows }

end Process

def Model.ofDocument (d : Xml.Document) : Except Failure Model := do
  let root := d.root
  if root.tag.name.stem != "definitions" then .error (.unexpectedRoot root.tag.name.stem)
  else
    let processes ← (root.descendants (Process.bpmn "process")).mapM Process.readProcess
    return {
      id := root.tag.get? "id", targetNamespace := root.tag.get? "targetNamespace"
      hasCollaboration := !(root.descendants (Process.bpmn "collaboration")).isEmpty
      processes := processes }

end ProcessForge
