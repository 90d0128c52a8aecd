import ProcessForge.OrderedMap

/-! The model of a process document: its processes with their lanes, flow nodes, data objects and
    sequence flows. Later passes fill in what the configuration and the organization say about them. -/

namespace ProcessForge

/-- Kinds of flow nodes. -/
inductive NodeKind where
  | userTask
  | serviceTask
  | scriptTask
  | businessRuleTask
  | sendTask
  | receiveTask
  | manualTask
  | startEvent
  | endEvent
  | intermediateThrowEvent
  | intermediateCatchEvent
  | boundaryEvent
  | exclusiveGateway
  | inclusiveGateway
  | parallelGateway
  | eventBasedGateway
  | complexGateway
  deriving DecidableEq, Repr, Inhabited

namespace NodeKind

/-- All kinds, in the order in which flow nodes are collected. -/
def all : List NodeKind := [
  .userTask, .serviceTask, .scriptTask, .businessRuleTask, .sendTask, .receiveTask, .manualTask,
  .startEvent, .endEvent, .intermediateThrowEvent, .intermediateCatchEvent, .boundaryEvent,
  .exclusiveGateway, .inclusiveGateway, .parallelGateway, .eventBasedGateway, .complexGateway]

def tagName : NodeKind → String
  | userTask => "userTask"
  | serviceTask => "serviceTask"
  | scriptTask => "scriptTask"
  | businessRuleTask => "businessRuleTask"
  | sendTask => "sendTask"
  | receiveTask => "receiveTask"
  | manualTask => "manualTask"
  | startEvent => "startEvent"
  | endEvent => "endEvent"
  | intermediateThrowEvent => "intermediateThrowEvent"
  | intermediateCatchEvent => "intermediateCatchEvent"
  | boundaryEvent => "boundaryEvent"
  | exclusiveGateway => "exclusiveGateway"
  | inclusiveGateway => "inclusiveGateway"
  | parallelGateway => "parallelGateway"
  | eventBasedGateway => "eventBasedGateway"
  | complexGateway => "complexGateway"

def ofName? (name : String) : Option NodeKind := all.find? fun kind => kind.tagName == name

def isEvent : NodeKind → Bool
  | startEvent | endEvent | intermediateThrowEvent | intermediateCatchEvent | boundaryEvent => true
  | _ => false

def isTask : NodeKind → Bool
  | userTask | serviceTask | scriptTask | businessRuleTask | sendTask | receiveTask
  | manualTask => true
  | _ => false

end NodeKind

/-- A data object that a node reads. -/
structure DataInput where
  id : String
  source : Option String := none
  target : Option String := none
  deriving DecidableEq, Repr, Inhabited

/-- A data object that a node writes. -/
structure DataOutput where
  id : String
  target : Option String := none
  deriving DecidableEq, Repr, Inhabited

/-- A flow node. The last fields are filled in by the enrichment. -/
structure FlowNode where
  id : String
  kind : NodeKind
  name : Option String := none
  vendorAttributes : OrderedMap String := []
  dataInputs : List DataInput := []
  dataOutputs : List DataOutput := []
  timer : Option String := none
  actor : Option String := none
  formKey : Option String := none
  formVariable : Option String := none
  emailFile : Option String := none
  emailTemplate : Option String := none
  restFile : Option String := none
  decision : Option String := none
  resultVariable : Option String := none
  deriving DecidableEq, Repr, Inhabited

/-- A lane and the nodes in it. -/
structure Lane where
  id : String
  name : Option String := none
  nodeRefs : List String := []
  vendorAttributes : OrderedMap String := []
  actor : Option String := none
  deriving DecidableEq, Repr, Inhabited

/-- The lanes of a process. -/
structure LaneSet where
  id : Option String := none
  lanes : List Lane := []
  deriving DecidableEq, Repr, Inhabited

/-- A data object with what its label says. -/
structure DataObject where
  id : String
  label : Option String := none
  object : Option String := none
  variableName : Option String := none
  typeName : Option String := none
  stateName : Option String := none
  deriving DecidableEq, Repr, Inhabited

/-- A sequence flow and its condition, as written and in the dialect of an engine. -/
structure SequenceFlow where
  id : String
  name : Option String := none
  source : Option String := none
  target : Option String := none
  expression : Option String := none
  resolved : Option String := none
  deriving DecidableEq, Repr, Inhabited

structure Process where
  id : String
  name : Option String := none
  isExecutable : Bool := false
  laneSet : Option LaneSet := none
  nodes : OrderedMap FlowNode := []
  dataObjects : OrderedMap DataObject := []
  flows : OrderedMap SequenceFlow := []
  deriving DecidableEq, Repr, Inhabited

/-- A process document. -/
structure Model where
  id : Option String := none
  targetNamespace : Option String := none
  hasCollaboration : Bool := false
  processes : List Process := []
  deriving DecidableEq, Repr, Inhabited

def FlowNode.hasEmail (n : FlowNode) : Bool := n.emailFile.any (· != "") || n.emailTemplate.any (· != "")

namespace Process

/-- Lanes of a process, none if it has no lane set. -/
def lanes (p : Process) : List Lane := (p.laneSet.map LaneSet.lanes).getD []

def withLanes (p : Process) (lanes : List Lane) : Process :=
  { p with laneSet := some { (p.laneSet.getD {}) with lanes := lanes } }

def nodesOf (p : Process) (kind : NodeKind) : List FlowNode := p.nodes.values.filter fun n => n.kind == kind

/-- First node with a name, of one kind if one is given. -/
def nodeNamed? (p : Process) (name : Option String) (kind : Option NodeKind) : Option FlowNode :=
  p.nodes.values.find? fun n => n.name == name && kind.all (n.kind == ·)

def writtenObject? (p : Process) (n : FlowNode) : Option DataObject :=
  match n.dataOutputs with
  | [] => none
  | first :: _ =>
    match first.target with
    | some target => if target.isEmpty then none else p.dataObjects.value? target
    | none => none

def initiatorLane? (p : Process) : Option Lane :=
  p.lanes.find? fun lane => lane.nodeRefs.any fun ref =>
    (p.nodes.value? ref).any fun n => n.kind == .startEvent

end Process

namespace Model

def process? (m : Model) (id : String) : Option Process := m.processes.find? fun p => p.id == id

def node? (m : Model) (id : String) : Option FlowNode := m.processes.findSome? fun p => p.nodes.value? id

def lane? (m : Model) (id : String) : Option Lane := (m.processes.flatMap Process.lanes).find? fun lane => lane.id == id

/-- All nodes, process by process. -/
def allNodes (m : Model) : List FlowNode := m.processes.flatMap fun p => p.nodes.values

/-- All data objects, process by process. -/
def allDataObjects (m : Model) : List DataObject := m.processes.flatMap fun p => p.dataObjects.values

def mapProcesses (f : Process → Process) (m : Model) : Model := { m with processes := m.processes.map f }

end Model

end ProcessForge
