import ProcessForge.Configuration.Model
import ProcessForge.Expression.Dialect
import ProcessForge.Failure
import ProcessForge.Json.Display
import ProcessForge.Organization.Model
import ProcessForge.Process.Model
import ProcessForge.Reference

/-! Passes that fill a process model with what its configuration and organization say. Processes are
    matched by id, lanes and flow nodes by name. A pass changes values only: it keeps all processes,
    lanes, nodes and flows and their order. -/

namespace ProcessForge.Enrichment

/-! ### Passes over a model -/

def mapConfigured (f : Process → ProcessSetting → Process) (config : Configuration) (m : Model) :
    Model :=
  m.mapProcesses fun p =>
    match config.setting? p.id with
    | some setting => f p setting
    | none => p

/-- Changes the nodes that carry the name of a setting, one setting after the other. -/
def updateNamed (accepts : NodeKind → Bool) (update : Process → NodeSetting → FlowNode → FlowNode)
    (settings : List NodeSetting) (p : Process) : Process :=
  let step (nodes : OrderedMap FlowNode) (setting : NodeSetting) : OrderedMap FlowNode :=
    nodes.mapValues fun n =>
      if n.name == some setting.name && accepts n.kind then update p setting n else n
  { p with nodes := settings.foldl step p.nodes }

def mapFlows (f : SequenceFlow → SequenceFlow) (m : Model) : Model :=
  m.mapProcesses fun p => { p with flows := p.flows.mapValues f }

def isFilled (s : Option String) : Bool := s.any (· != "")

/-! ### Conditions of flows -/

/-- Puts the values of global variables into the conditions. -/
def substituteVariables (globals : OrderedMap String) : Model → Model :=
  mapFlows fun flow =>
    { flow with expression := flow.expression.map (Expression.substituteGlobals globals) }

/-- Puts the conditions into the dialect of an engine. -/
def resolveFlows (dialect : Dialect) : Model → Model :=
  mapFlows fun flow => { flow with resolved := flow.expression.map (Expression.flatten dialect) }

/-! ### Lanes and actors -/

/-- The actor that a reference to the organization names, by name or id; any other text stays. -/
def resolveActor (organization : Option Organization) (s : String) : String :=
  match organization, Reference.target? "ref:organization." s with
  | some organization, some wanted =>
    let wanted := String.ofList (Text.trimChars wanted)
    match organization.actors.find? fun a => wanted == a.name || wanted == a.id with
    | some actor => if actor.name.isEmpty then actor.id else actor.name
    | none => s
  | _, _ => s

/-- The setting of a lane: the first with its name. -/
def laneSetting? (setting : ProcessSetting) (lane : Lane) : Option LaneSetting :=
  setting.lanes.find? fun s => some s.name == lane.name

/-- Changes the lanes of a process that has a lane set. -/
def mapLanes (f : Lane → Lane) (p : Process) : Process :=
  match p.laneSet with
  | some _ => p.withLanes (p.lanes.map f)
  | none => p

def bindLanes (config : Configuration) (organization : Option Organization) : Model → Model :=
  mapConfigured (fun p setting => mapLanes (fun lane =>
    match (laneSetting? setting lane).bind LaneSetting.assignee with
    | some assignee =>
      if assignee.isEmpty then lane
      else { lane with actor := some (resolveActor organization assignee) }
    | none => lane) p) config

/-- Gives the actor of a lane to a user task in it. -/
def giveActor (actor : String) (nodes : OrderedMap FlowNode) (ref : String) : OrderedMap FlowNode :=
  nodes.map fun (id, n) =>
    (id, if id == ref && n.kind == .userTask then { n with actor := some actor } else n)

/-- Gives every user task the actor of its lane; of several lanes the last one counts. -/
def propagateActors : Model → Model :=
  Model.mapProcesses fun p =>
    let step (nodes : OrderedMap FlowNode) (lane : Lane) : OrderedMap FlowNode :=
      match lane.actor with
      | some actor => if actor.isEmpty then nodes else lane.nodeRefs.foldl (giveActor actor) nodes
      | none => nodes
    { p with nodes := p.lanes.foldl step p.nodes }

/-! ### Files of tasks -/

/-- Gives user tasks their form, and the variable that the form writes. -/
def bindForms : Configuration → Model → Model :=
  mapConfigured fun p setting => updateNamed (· == .userTask) (fun p s n =>
    match s.formRef.bind Reference.formKey? with
    | some key =>
      { n with
        formKey := some key
        formVariable := (p.writtenObject? n).bind DataObject.variableName }
    | none => n) setting.tasks p

def bindEmails : Configuration → Model → Model :=
  mapConfigured fun p setting => updateNamed (fun _ => true) (fun _ s n =>
    if isFilled s.emailJsonRef || isFilled s.emailFtlRef then
      { n with
        emailFile := s.emailJsonRef.map Reference.fileName
        emailTemplate := s.emailFtlRef.map Reference.fileName }
    else n) setting.tasks p

/-- Gives tasks the names of the files of their calls. -/
def bindCalls : Configuration → Model → Model :=
  mapConfigured fun p setting => updateNamed (fun _ => true) (fun _ s n =>
    if isFilled s.restCallRef then { n with restFile := s.restCallRef.map Reference.fileName }
    else n) setting.tasks p

/-- Gives business rule tasks their decision and the variable for its result. -/
def bindDecisions : Configuration → Model → Model :=
  mapConfigured fun p setting => updateNamed (· == .businessRuleTask) (fun _ s n =>
    if isFilled s.dmnRef || isFilled s.dmnResultVariable then
      { n with decision := s.dmnRef, resultVariable := s.dmnResultVariable }
    else n) setting.tasks p

/-- Turns references to decisions into names, and paths of results into variables. -/
def nameDecisions : Model → Model :=
  Model.mapProcesses fun p =>
    { p with nodes := p.nodes.mapValues fun n =>
      if n.kind == .businessRuleTask then
        { n with
          decision := n.decision.map Reference.decisionName
          resultVariable := n.resultVariable.map Expression.camundaVariable }
      else n }

/-! ### Vendor attributes -/

/-- Whether an attribute is written for an engine. -/
def isFor (engine key : String) : Bool := (Text.dropPrefix? (engine ++ ":").toList key.toList).isSome

/-- Adds accepted attributes with the texts of their values; null values do not count. -/
def mergeAttributes (accepts : String → Bool) (existing : OrderedMap String)
    (extra : OrderedMap Json) : OrderedMap String :=
  extra.foldl (fun merged (key, v) =>
    match v with
    | .null => merged
    | v => if accepts key then merged.put key v.display else merged) existing

/-- Gives lanes and nodes the vendor attributes of their settings. -/
def mergeVendorAttributes (accepts : String → Bool) : Configuration → Model → Model :=
  mapConfigured fun p setting =>
    let update (_ : Process) (s : NodeSetting) (n : FlowNode) : FlowNode :=
      { n with vendorAttributes := mergeAttributes accepts n.vendorAttributes s.vendorAttributes }
    let p := mapLanes (fun lane =>
      match laneSetting? setting lane with
      | some s =>
        { lane with
          vendorAttributes := mergeAttributes accepts lane.vendorAttributes s.vendorAttributes }
      | none => lane) p
    let p := updateNamed (fun _ => true) update setting.tasks p
    updateNamed (fun _ => true) update setting.events p

/-! ### All together -/

/-- Everything that the emitter for an engine needs: variables, actors, forms, files, attributes and
    decisions. -/
def enrich (engine : String) (config : Configuration) (organization : Option Organization) (m : Model) : Model :=
  let m := substituteVariables config.globals m
  let m := bindLanes config organization m
  let m := propagateActors m
  let m := bindForms config m
  let m := bindEmails config m
  let m := mergeVendorAttributes (isFor engine) config m
  let m := bindCalls config m
  bindDecisions config m

/-- Puts the values of global variables into files. -/
def substituteInFiles (globals : OrderedMap String) (files : OrderedMap String) : OrderedMap String :=
  files.mapValues (Expression.substituteGlobalsInFile globals)

end ProcessForge.Enrichment
