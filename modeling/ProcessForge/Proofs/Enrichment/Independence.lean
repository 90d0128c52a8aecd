import Mathlib.Data.List.Perm.Basic
import ProcessForge.Proofs.Enrichment

/-! Independence of the passes. Every pass writes a slot of its own: to nodes, to lanes or to flows. It reads what
    no pass writes, with one exception: the actors of lanes are read when they are handed on to the tasks. Main
    statement: whenever lanes are bound before their actors are handed on, the order of the passes does not
    matter, and each of them but the substitution of variables may be run once more. -/

namespace ProcessForge.Enrichment

open List OrderedMap

/-! ### Passes -/

/-- The passes of the enrichment. -/
inductive Pass where
  | globals
  | lanes
  | actors
  | forms
  | emails
  | vendor
  | calls
  | decisions
  deriving DecidableEq, Repr

/-- What the passes work with: the configuration, the organization, global variables, and which vendor attributes
    are accepted. -/
structure Givens where
  config : Configuration
  organization : Option Organization
  globals : OrderedMap String
  accepts : String → Bool

variable (given g : Givens)

def Pass.apply : Pass → Model → Model
  | .globals => substituteVariables given.globals
  | .lanes => bindLanes given.config given.organization
  | .actors => propagateActors
  | .forms => bindForms given.config
  | .emails => bindEmails given.config
  | .vendor => mergeVendorAttributes given.accepts given.config
  | .calls => bindCalls given.config
  | .decisions => bindDecisions given.config

def runPasses (passes : List Pass) (m : Model) : Model := passes.foldl (fun m pass => pass.apply given m) m

/-- The order in which the enrichment runs the passes. -/
def Pass.inOrder : List Pass := [.globals, .lanes, .actors, .forms, .emails, .vendor, .calls, .decisions]

/-! ### Slots of nodes -/

namespace Pass

abbrev Slot : Pass → Type
  | .actors | .calls => Option String
  | .forms | .emails | .decisions => Option String × Option String
  | .vendor => OrderedMap String
  | .globals | .lanes => Unit

def get : (pass : Pass) → FlowNode → pass.Slot
  | .globals, _ => ()
  | .lanes, _ => ()
  | .actors, n => n.actor
  | .forms, n => (n.formKey, n.formVariable)
  | .emails, n => (n.emailFile, n.emailTemplate)
  | .vendor, n => n.vendorAttributes
  | .calls, n => n.restFile
  | .decisions, n => (n.decision, n.resultVariable)

def put : (pass : Pass) → FlowNode → pass.Slot → FlowNode
  | .globals, n, _ => n
  | .lanes, n, _ => n
  | .actors, n, actor => { n with actor := actor }
  | .forms, n, (key, written) => { n with formKey := key, formVariable := written }
  | .emails, n, (file, template) => { n with emailFile := file, emailTemplate := template }
  | .vendor, n, attributes => { n with vendorAttributes := attributes }
  | .calls, n, file => { n with restFile := file }
  | .decisions, n, (decision, result) => { n with decision := decision, resultVariable := result }

theorem put_get (p : Pass) (n : FlowNode) : p.put n (p.get n) = n := by
  cases p <;> rfl

theorem get_put (p : Pass) (n : FlowNode) (v : p.Slot) : p.get (p.put n v) = v := by
  cases p <;> rfl

theorem put_put (p : Pass) (n : FlowNode) (v w : p.Slot) : p.put (p.put n v) w = p.put n w := by
  cases p <;> rfl

theorem put_name (p : Pass) (n : FlowNode) (v : p.Slot) : (p.put n v).name = n.name := by
  cases p <;> rfl

theorem put_kind (p : Pass) (n : FlowNode) (v : p.Slot) : (p.put n v).kind = n.kind := by
  cases p <;> rfl

theorem get_put_of_ne {a b : Pass} (h : a ≠ b) (n : FlowNode) (v : b.Slot) : a.get (b.put n v) = a.get n := by
  cases a <;> cases b <;> first | rfl | exact absurd rfl h

theorem put_comm {a b : Pass} (h : a ≠ b) (n : FlowNode) (v : a.Slot) (w : b.Slot) :
    a.put (b.put n w) v = b.put (a.put n v) w := by
  cases a <;> cases b <;> first | rfl | exact absurd rfl h

end Pass

/-! ### What is written -/

def settingsFor (n : FlowNode) (settings : List NodeSetting) : List NodeSetting :=
  settings.filter fun s => n.name == some s.name

/-- The last of some items to write anything decides. -/
def lastWritten {σ τ : Type} (write : τ → Option σ) (items : List τ) (old : σ) : σ :=
  items.foldl (fun old item => (write item).getD old) old

/-- The actor that a lane gives to the node with an id. -/
def actorOf (id : String) (lane : Lane) : Option (Option String) :=
  if lane.nodeRefs.contains id && isFilled lane.actor then some lane.actor else none

def Givens.tasks (p : Process) : List NodeSetting := ((given.config.setting? p.id).map ProcessSetting.tasks).getD []

/-- What is configured for the tasks and events of a process. -/
def Givens.nodes (p : Process) : List NodeSetting :=
  ((given.config.setting? p.id).map fun s => s.tasks ++ s.events).getD []

def formOf (p : Process) (n : FlowNode) (s : NodeSetting) : Option (Option String × Option String) :=
  (s.formRef.bind Reference.formKey?).map fun key =>
    (some key, (p.writtenObject? n).bind DataObject.variableName)

/-- The e-mail files that a setting gives a node. -/
def emailOf (s : NodeSetting) : Option (Option String × Option String) :=
  if isFilled s.emailJsonRef || isFilled s.emailFtlRef then
    some (s.emailJsonRef.map Reference.fileName, s.emailFtlRef.map Reference.fileName)
  else none

/-- The file of a call that a setting gives a node. -/
def callOf (s : NodeSetting) : Option (Option String) :=
  if isFilled s.restCallRef then some (s.restCallRef.map Reference.fileName) else none

/-- The decision that a setting gives a node. -/
def decisionOf (s : NodeSetting) : Option (Option String × Option String) :=
  if isFilled s.dmnRef || isFilled s.dmnResultVariable then some (s.dmnRef, s.dmnResultVariable) else none

/-- The new slot of a pass in the node with an id. -/
def Pass.value (p : Process) (id : String) (n : FlowNode) : (pass : Pass) → pass.Slot → pass.Slot
  | .globals, old => old
  | .lanes, old => old
  | .actors, old => if n.kind == .userTask then lastWritten (actorOf id) p.lanes old else old
  | .forms, old =>
    if n.kind == .userTask then lastWritten (formOf p n) (settingsFor n (given.tasks p)) old else old
  | .emails, old => lastWritten emailOf (settingsFor n (given.tasks p)) old
  | .vendor, old =>
    (settingsFor n (given.nodes p)).foldl (fun old s => mergeAttributes given.accepts old s.vendorAttributes) old
  | .calls, old => lastWritten callOf (settingsFor n (given.tasks p)) old
  | .decisions, old =>
    if n.kind == .businessRuleTask then lastWritten decisionOf (settingsFor n (given.tasks p)) old
    else old

def Pass.onNode (p : Process) (pass : Pass) (id : String) (n : FlowNode) : FlowNode :=
  pass.put n (pass.value given p id n (pass.get n))

/-- The setting of a lane of the process with an id. -/
def Givens.lane? (id : String) (lane : Lane) : Option LaneSetting :=
  (given.config.setting? id).bind (laneSetting? · lane)

def Givens.laneActor (setting : Option LaneSetting) (old : Option String) : Option String :=
  match setting.bind LaneSetting.assignee with
  | some assignee => if assignee.isEmpty then old else some (resolveActor given.organization assignee)
  | none => old

/-- The vendor attributes that a setting gives a lane. -/
def Givens.laneAttributes (setting : Option LaneSetting) (old : OrderedMap String) : OrderedMap String :=
  match setting with
  | some s => mergeAttributes given.accepts old s.vendorAttributes
  | none => old

/-- A pass on a lane of the process with an id. -/
def Pass.onLane (id : String) : Pass → Lane → Lane
  | .lanes, lane => { lane with actor := given.laneActor (given.lane? id lane) lane.actor }
  | .vendor, lane =>
    { lane with vendorAttributes := given.laneAttributes (given.lane? id lane) lane.vendorAttributes }
  | _, lane => lane

def Pass.onFlow : Pass → SequenceFlow → SequenceFlow
  | .globals, flow => substituted given.globals flow
  | _, flow => flow

/-- A pass on a process: lanes, nodes and flows one by one. -/
def Pass.onProcess (pass : Pass) (p : Process) : Process :=
  { p with
    laneSet := p.laneSet.map fun set => { set with lanes := set.lanes.map (pass.onLane given p.id) }
    nodes := p.nodes.map fun entry => (entry.1, pass.onNode given p entry.1 entry.2)
    flows := p.flows.mapValues (pass.onFlow given) }

/-! ### Every pass is one on lanes, nodes and flows -/

theorem mapLanes_eq (f : Lane → Lane) (p : Process) : mapLanes f p
    = { p with laneSet := p.laneSet.map fun set => { set with lanes := set.lanes.map f } } := by
  obtain ⟨id, name, executable, laneSet, ns, objects, flows⟩ := p
  cases laneSet <;> rfl

theorem laneSet_onLane {p : Pass} {id : String} (h : ∀ lane, p.onLane given id lane = lane) (laneSet : Option LaneSet) :
    (laneSet.map fun set => { set with lanes := set.lanes.map (p.onLane given id) }) = laneSet := by
  have hl : p.onLane given id = fun lane => lane := funext h
  cases laneSet <;> simp [hl]

theorem mapValues_onFlow {p : Pass} (h : ∀ flow, p.onFlow given flow = flow)
    (flows : OrderedMap SequenceFlow) : flows.mapValues (p.onFlow given) = flows := by
  have hf : p.onFlow given = fun flow => flow := funext h
  simp [hf, mapValues]

theorem Pass.onProcess_of_nodes {pa : Pass} (hl : ∀ id l, pa.onLane g id l = l)
    (hf : ∀ flow, pa.onFlow g flow = flow) (p : Process) : pa.onProcess g p
      = { p with nodes := p.nodes.map fun x => (x.1, pa.onNode g p x.1 x.2) } := by
  rw [Pass.onProcess, laneSet_onLane g (hl p.id), mapValues_onFlow g hf]

theorem map_onNode_of_value {pa : Pass} {p : Process} (h : ∀ id n, pa.value given p id n (pa.get n) = pa.get n) :
    (p.nodes.map fun x => (x.1, pa.onNode given p x.1 x.2)) = p.nodes := by
  refine map_id'' (fun x => ?_) _
  rw [Pass.onNode, h, Pass.put_get]

theorem foldl_put {p : Pass} {touch : FlowNode → NodeSetting → FlowNode}
    (write : FlowNode → NodeSetting → p.Slot → p.Slot) (ht : ∀ n s, touch n s = p.put n (write n s (p.get n)))
    (hw : ∀ n v, write (p.put n v) = write n) (ss : List NodeSetting) : ∀ n,
    ss.foldl touch n = p.put n (ss.foldl (fun old s => write n s old) (p.get n)) := by
  induction ss with
  | nil => exact fun n => (p.put_get n).symm
  | cons s tl ih =>
    intro n
    rw [foldl_cons, foldl_cons, ih, ht, Pass.get_put, Pass.put_put, hw]

theorem foldl_mapValues (f : NodeSetting → FlowNode → FlowNode) (ss : List NodeSetting) :
    ∀ ns : OrderedMap FlowNode, ss.foldl (fun ns s => ns.mapValues (f s)) ns
      = ns.mapValues fun n => ss.foldl (fun n s => f s n) n := by
  induction ss with
  | nil => simp [mapValues]
  | cons s tl ih =>
    intro ns
    rw [foldl_cons, ih]
    simp [mapValues]

theorem nodes_updateNamed {pa : Pass} (as : NodeKind → Bool)
    {update : Process → NodeSetting → FlowNode → FlowNode} {p : Process}
    {write : FlowNode → NodeSetting → pa.Slot → pa.Slot} (hu : ∀ s n, update p s n = pa.put n (write n s (pa.get n)))
    (hw : ∀ n v, write (pa.put n v) = write n) (ss : List NodeSetting) :
    (updateNamed as update ss p).nodes = p.nodes.mapValues fun n => pa.put n
      (if as n.kind then (settingsFor n ss).foldl (fun old s => write n s old) (pa.get n) else pa.get n) := by
  have ht : ∀ n s, (if n.name == some s.name && as n.kind then update p s n else n)
      = pa.put n (if n.name == some s.name && as n.kind then write n s (pa.get n) else pa.get n) := by
    intro n s
    split
    · exact hu s n
    · exact (pa.put_get n).symm
  simp only [updateNamed, foldl_mapValues]
  refine congrArg (mapValues · p.nodes) (funext fun n => ?_)
  rw [foldl_put (fun n s old => if n.name == some s.name && as n.kind then write n s old else old) ht
    (fun n v => by rw [hw, Pass.put_name, Pass.put_kind])]
  cases as n.kind with
  | true => simp [settingsFor, foldl_filter]
  | false => simp

theorem updateNamed_append (as : NodeKind → Bool) (update : NodeSetting → FlowNode → FlowNode)
    (ss ms : List NodeSetting) (p : Process) :
    updateNamed as (fun _ => update) ms (updateNamed as (fun _ => update) ss p)
      = updateNamed as (fun _ => update) (ss ++ ms) p := by
  simp [updateNamed, foldl_append]

theorem mapConfigured_eq {f : Process → ProcessSetting → Process} {g : Process → Process}
    (hso : ∀ p s, given.config.setting? p.id = some s → f p s = g p)
    (hn : ∀ p, given.config.setting? p.id = none → g p = p) (m : Model) :
    mapConfigured f given.config m = m.mapProcesses g := by
  refine congrArg (fun h : Process → Process => m.mapProcesses h) (funext fun p => ?_)
  split
  · next s hs => exact hso p s hs
  · next hs => exact (hn p hs).symm

theorem mapConfigured_updateNamed {pa : Pass} {as : NodeKind → Bool}
    {update : Process → NodeSetting → FlowNode → FlowNode}
    (write : Process → FlowNode → NodeSetting → pa.Slot → pa.Slot)
    (hl : ∀ id l, pa.onLane g id l = l) (hf : ∀ flow, pa.onFlow g flow = flow)
    (hu : ∀ p s n, update p s n = pa.put n (write p n s (pa.get n))) (hw : ∀ p n v, write p (pa.put n v) = write p n)
    (hv : ∀ p id n old, pa.value g p id n old = if as n.kind then
      (settingsFor n (g.tasks p)).foldl (fun old s => write p n s old) old else old) (m : Model) :
    mapConfigured (fun p st => updateNamed as update st.tasks p) g.config m = m.mapProcesses (pa.onProcess g) := by
  refine mapConfigured_eq g (fun p st hs => ?_) (fun p hs => ?_) m
  · have hn := nodes_updateNamed as (hu p) (hw p) st.tasks
    have hst : updateNamed as update st.tasks p = { p with nodes := (updateNamed as update st.tasks p).nodes } := rfl
    rw [hst, hn, Pass.onProcess_of_nodes g hl hf]
    simp only [Pass.onNode, hv, Givens.tasks, hs, Option.map_some, Option.getD_some]
    rfl
  · rw [Pass.onProcess_of_nodes g hl hf, map_onNode_of_value g fun id n => ?_]
    simp [hv, Givens.tasks, hs, settingsFor]

theorem foldl_giveActor (actor : String) (refs : List String) : ∀ ns : OrderedMap FlowNode,
    refs.foldl (giveActor actor) ns = ns.map fun x => (x.1,
      if refs.contains x.1 && x.2.kind == .userTask then { x.2 with actor := some actor }
      else x.2) := by
  induction refs with
  | nil => simp
  | cons ref tl ih =>
    intro ns
    rw [foldl_cons, ih, giveActor, map_map]
    refine map_congr_left fun x _ => ?_
    by_cases hid : x.1 = ref <;> by_cases hk : x.2.kind = .userTask <;> simp [hid, hk]

theorem foldl_lanes (ls : List Lane) : ∀ ns : OrderedMap FlowNode, ls.foldl (fun ns l => match l.actor with
      | some a => if a.isEmpty then ns else l.nodeRefs.foldl (giveActor a) ns
      | none => ns) ns
      = ns.map fun x => (x.1, Pass.put .actors x.2 (if x.2.kind == .userTask then lastWritten (actorOf x.1) ls x.2.actor
          else x.2.actor)) := by
  induction ls with
  | nil => simp [lastWritten, Pass.put]
  | cons l tl ih =>
    intro ns
    rw [foldl_cons, ih]
    cases ha : l.actor with
    | none => simp [lastWritten, actorOf, isFilled, ha]
    | some a =>
      by_cases he : a = ""
      · simp [lastWritten, actorOf, isFilled, ha, he]
      · simp only [String.isEmpty_iff, he, if_false, foldl_giveActor, map_map]
        refine map_congr_left fun x _ => ?_
        have hf : isFilled l.actor := by simpa [isFilled, ha] using he
        by_cases hk : x.2.kind = .userTask <;> by_cases hr : x.1 ∈ l.nodeRefs <;>
          simp [lastWritten, actorOf, ← ha, hk, hr, hf, Pass.put]

theorem Pass.apply_eq (pa : Pass) (m : Model) : pa.apply g m = m.mapProcesses (pa.onProcess g) := by
  cases pa with
  | globals =>
    refine congrArg (fun f : Process → Process => m.mapProcesses f) (funext fun p => ?_)
    rw [Pass.onProcess, laneSet_onLane g (fun _ => rfl), map_onNode_of_value g (fun _ _ => rfl)]
    rfl
  | lanes =>
    refine mapConfigured_eq g (fun p st hs => ?_) (fun p hs => ?_) m
    · rw [Pass.onProcess, map_onNode_of_value g (fun _ _ => rfl), mapValues_onFlow g (fun _ => rfl), ← mapLanes_eq]
      refine congrArg (mapLanes · p) (funext fun lane => ?_)
      have hl : g.lane? p.id lane = laneSetting? st lane := by rw [Givens.lane?, hs]; rfl
      rw [Pass.onLane, hl, Givens.laneActor]
      cases (laneSetting? st lane).bind LaneSetting.assignee with
      | none => rfl
      | some assignee => by_cases he : assignee.isEmpty <;> simp [he]
    · rw [Pass.onProcess, map_onNode_of_value g (fun _ _ => rfl), mapValues_onFlow g (fun _ => rfl),
        laneSet_onLane g (fun lane => by simp [Pass.onLane, Givens.lane?, Givens.laneActor, hs])]
  | actors =>
    refine congrArg (fun f : Process → Process => m.mapProcesses f) (funext fun p => ?_)
    rw [Pass.onProcess_of_nodes g (fun _ _ => rfl) (fun _ => rfl)]
    exact congrArg (fun nodes => { p with nodes := nodes }) (foldl_lanes p.lanes p.nodes)
  | forms =>
    refine mapConfigured_updateNamed g (fun p n s old => (formOf p n s).getD old)
      (fun _ _ => rfl) (fun _ => rfl) (fun p s n => ?_) (fun _ _ _ => rfl) (fun _ _ _ _ => rfl) m
    rw [formOf]
    cases s.formRef.bind Reference.formKey? <;> rfl
  | emails =>
    refine mapConfigured_updateNamed g (fun _ _ s old => (emailOf s).getD old)
      (fun _ _ => rfl) (fun _ => rfl) (fun p s n => ?_) (fun _ _ _ => rfl) (fun _ _ _ _ => rfl) m
    rw [emailOf]
    split <;> rfl
  | vendor =>
    refine mapConfigured_eq g (fun p st hs => ?_) (fun p hs => ?_) m
    · have hl : Pass.onLane g p.id .vendor = fun lane =>
          match laneSetting? st lane with
          | some s =>
            { lane with
              vendorAttributes := mergeAttributes g.accepts lane.vendorAttributes s.vendorAttributes }
          | none => lane := by
        funext lane
        rw [Pass.onLane, Givens.lane?, hs, Option.bind_some]
        cases laneSetting? st lane <;> rfl
      let update (_ : Process) (s : NodeSetting) (n : FlowNode) : FlowNode :=
        { n with vendorAttributes := mergeAttributes g.accepts n.vendorAttributes s.vendorAttributes }
      have hn := @nodes_updateNamed .vendor (fun _ => true) update p
        (fun _ s old => mergeAttributes g.accepts old s.vendorAttributes) (fun _ _ => rfl) (fun _ _ => rfl)
        (st.tasks ++ st.events)
      rw [Pass.onProcess, mapValues_onFlow g (fun _ => rfl), hl]
      simp only [updateNamed_append, mapLanes_eq, Pass.onNode, Pass.value, Givens.nodes, hs,
        Option.map_some, Option.getD_some]
      exact congrArg (fun nodes => Process.mk _ _ _ _ nodes _ _) hn
    · rw [Pass.onProcess, laneSet_onLane g (fun lane => by
          simp [Pass.onLane, Givens.lane?, Givens.laneAttributes, hs]),
        map_onNode_of_value g (fun id n => by simp [Pass.value, Givens.nodes, hs, settingsFor]),
        mapValues_onFlow g (fun _ => rfl)]
  | calls =>
    refine mapConfigured_updateNamed g (fun _ _ s old => (callOf s).getD old)
      (fun _ _ => rfl) (fun _ => rfl) (fun p s n => ?_) (fun _ _ _ => rfl) (fun _ _ _ _ => rfl) m
    rw [callOf]
    split <;> rfl
  | decisions =>
    refine mapConfigured_updateNamed g (fun _ _ s old => (decisionOf s).getD old)
      (fun _ _ => rfl) (fun _ => rfl) (fun p s n => ?_) (fun _ _ _ => rfl) (fun _ _ _ _ => rfl) m
    rw [decisionOf]
    split <;> rfl

/-! ### Different passes -/

theorem Pass.value_put (p : Process) (id : String) (a b : Pass) (n : FlowNode) (v : b.Slot) :
    a.value given p id (b.put n v) = a.value given p id n := by
  cases a <;> cases b <;> rfl

theorem Pass.actorOf_onLane {pa : Pass} (h : pa ≠ .lanes) (p id : String) (lane : Lane) :
    actorOf id (pa.onLane given p lane) = actorOf id lane := by
  cases pa with
  | lanes => exact absurd rfl h
  | globals | actors | forms | emails | vendor | calls | decisions => rfl

theorem Pass.lanes_onProcess (pa : Pass) (p : Process) :
    (pa.onProcess given p).lanes = p.lanes.map (pa.onLane given p.id) := by
  simp only [Process.lanes, Pass.onProcess]
  cases p.laneSet <;> rfl

/-- What a pass writes to a node depends on nothing that another pass does to the process, but for the actors of
    lanes. -/
theorem Pass.value_onProcess {a b : Pass} (h : a = .actors → b ≠ .lanes) (p : Process) (id : String)
    (n : FlowNode) : a.value given (b.onProcess given p) id n = a.value given p id n := by
  cases a with
  | actors =>
    funext old
    simp [Pass.value, Pass.lanes_onProcess, lastWritten, foldl_map, Pass.actorOf_onLane given (h rfl)]
  | globals | lanes | forms | emails | vendor | calls | decisions => rfl

theorem Pass.onNode_comm {a b : Pass} (hn : a ≠ b) (ha : a = .actors → b ≠ .lanes)
    (hb : b = .actors → a ≠ .lanes) (p : Process) (id : String) (n : FlowNode) :
    a.onNode given (b.onProcess given p) id (b.onNode given p id n)
      = b.onNode given (a.onProcess given p) id (a.onNode given p id n) := by
  simp only [Pass.onNode, Pass.value_onProcess given ha, Pass.value_onProcess given hb, Pass.value_put,
    Pass.get_put_of_ne hn, Pass.get_put_of_ne hn.symm]
  exact Pass.put_comm hn n _ _

theorem Pass.onLane_comm (id : String) (a b : Pass) (l : Lane) :
    a.onLane given id (b.onLane given id l) = b.onLane given id (a.onLane given id l) := by
  cases a <;> cases b <;> rfl

theorem Pass.onFlow_comm (a b : Pass) (flow : SequenceFlow) :
    a.onFlow given (b.onFlow given flow) = b.onFlow given (a.onFlow given flow) := by
  cases a <;> cases b <;> rfl

theorem Pass.onProcess_onProcess (a b : Pass) (p : Process) : a.onProcess given (b.onProcess given p) = { p with
        laneSet := p.laneSet.map fun set =>
          { set with lanes := set.lanes.map fun l => a.onLane given p.id (b.onLane given p.id l) }
        nodes := p.nodes.map fun x => (x.1, a.onNode given (b.onProcess given p) x.1 (b.onNode given p x.1 x.2))
        flows := p.flows.mapValues fun flow => a.onFlow given (b.onFlow given flow) } := by
  have hl : ∀ laneSet : Option LaneSet, (laneSet.map fun set =>
      { set with lanes := set.lanes.map (b.onLane given p.id) }).map (fun set =>
      { set with lanes := set.lanes.map (a.onLane given p.id) }) = laneSet.map fun set =>
      { set with lanes := set.lanes.map fun l => a.onLane given p.id (b.onLane given p.id l) } := by
    intro laneSet
    cases laneSet <;> simp
  simp [Pass.onProcess, mapValues, hl]

/-- Passes commute, unless one binds lanes and the other hands their actors on. -/
theorem Pass.apply_comm {a b : Pass} (hn : a ≠ b) (ha : a = .actors → b ≠ .lanes)
    (hb : b = .actors → a ≠ .lanes) (m : Model) :
    a.apply given (b.apply given m) = b.apply given (a.apply given m) := by
  have hp : ∀ p, a.onProcess given (b.onProcess given p) = b.onProcess given (a.onProcess given p) := by
    intro p
    simp [Pass.onProcess_onProcess, Pass.onNode_comm given hn ha hb, Pass.onLane_comm given p.id a b,
      Pass.onFlow_comm given a b]
  simp only [Pass.apply_eq, Model.mapProcesses, map_map, Function.comp_def, hp]

/-! ### The same pass twice -/

theorem lastWritten_eq {σ τ : Type} (write : τ → Option σ) (is : List τ) (old : σ) :
    lastWritten write is old = (is.reverse.findSome? write).getD old := by
  induction is generalizing old with
  | nil => rfl
  | cons item tl ih =>
    have hc : lastWritten write (item :: tl) old = lastWritten write tl ((write item).getD old) := rfl
    rw [hc, ih, reverse_cons, findSome?_append]
    cases tl.reverse.findSome? write <;> cases hit : write item <;> simp [hit]

theorem lastWritten_twice {σ τ : Type} (write : τ → Option σ) (is : List τ) (old : σ) :
    lastWritten write is (lastWritten write is old) = lastWritten write is old := by
  simp only [lastWritten_eq]
  cases is.reverse.findSome? write <;> rfl

/-- The entries that are written when attributes are merged. -/
def mergedEntries (accepts : String → Bool) (extra : OrderedMap Json) : List (String × String) :=
  extra.filterMap fun (key, v) =>
    match v with
    | .null => none
    | v => if accepts key then some (key, v.display) else none

theorem mergeAttributes_eq (as : String → Bool) (extra : OrderedMap Json) (e : OrderedMap String) :
    mergeAttributes as e extra = e.putAll (mergedEntries as extra) := by
  induction extra generalizing e with
  | nil => rfl
  | cons x rest ih =>
    obtain ⟨key, v⟩ := x
    have hc : mergeAttributes as e ((key, v) :: rest) = mergeAttributes as (mergeAttributes as e [(key, v)]) rest := rfl
    rw [hc, ih]
    cases v with
    | null => simp [mergeAttributes, mergedEntries]
    | bool | int | float | str | arr | obj =>
      by_cases hk : as key <;> simp [mergeAttributes, mergedEntries, putAll, hk]

theorem foldl_mergeAttributes (as : String → Bool) (ss : List NodeSetting) (e : OrderedMap String) :
    ss.foldl (fun old s => mergeAttributes as old s.vendorAttributes) e
      = e.putAll (ss.flatMap fun s => mergedEntries as s.vendorAttributes) := by
  induction ss generalizing e with
  | nil => rfl
  | cons s tl ih =>
    rw [foldl_cons, ih, mergeAttributes_eq, flatMap_cons, putAll_append]

theorem Pass.value_value (p : Process) (id : String) (n : FlowNode) (pa : Pass) (old : pa.Slot) :
    pa.value given p id n (pa.value given p id n old) = pa.value given p id n old := by
  cases pa with
  | globals | lanes => rfl
  | actors | forms | decisions =>
    simp only [Pass.value]
    split
    · exact lastWritten_twice _ _ old
    · rfl
  | emails | calls => exact lastWritten_twice _ _ old
  | vendor => simp [Pass.value, foldl_mergeAttributes, putAll_putAll]

theorem Pass.onLane_onLane (id : String) (p : Pass) (lane : Lane) :
    p.onLane g id (p.onLane g id lane) = p.onLane g id lane := by
  have hac : ∀ st old, g.laneActor st (g.laneActor st old) = g.laneActor st old := by
    intro st old
    simp only [Givens.laneActor]
    cases st.bind LaneSetting.assignee with
    | none => rfl
    | some assignee => by_cases he : assignee.isEmpty <;> simp [he]
  have ha : ∀ st old, g.laneAttributes st (g.laneAttributes st old) = g.laneAttributes st old := by
    intro st old
    cases st with
    | none => rfl
    | some s => simp [Givens.laneAttributes, mergeAttributes_eq, putAll_putAll]
  cases p with
  | lanes => exact congrArg (fun actor => { lane with actor := actor }) (hac _ lane.actor)
  | vendor =>
    exact congrArg (fun as => { lane with vendorAttributes := as }) (ha _ lane.vendorAttributes)
  | globals | actors | forms | emails | calls | decisions => rfl

/-- A pass that was just run changes nothing. -/
theorem Pass.apply_apply {pa : Pass} (h : pa ≠ .globals) (m : Model) : pa.apply g (pa.apply g m) = pa.apply g m := by
  have hn : ∀ p id n, pa.onNode g (pa.onProcess g p) id (pa.onNode g p id n) = pa.onNode g p id n := by
    intro p id n
    have hl : pa = .actors → pa ≠ .lanes := by
      rintro rfl
      decide
    simp [Pass.onNode, Pass.value_onProcess g hl, Pass.value_put, Pass.get_put, Pass.value_value, Pass.put_put]
  have hf : ∀ flow, pa.onFlow g flow = flow := by
    intro flow
    cases pa with
    | globals => exact absurd rfl h
    | lanes | actors | forms | emails | vendor | calls | decisions => rfl
  have hp : ∀ p, pa.onProcess g (pa.onProcess g p) = pa.onProcess g p := by
    intro p
    rw [Pass.onProcess_onProcess]
    simp only [hn, hf, Pass.onLane_onLane]
    rw [Pass.onProcess, mapValues_onFlow g hf]
    simp [mapValues]
  simp [Pass.apply_eq, Model.mapProcesses, hp]

theorem onProcess_lanes {p : Process}
    (h : ∀ l ∈ p.lanes, Pass.onLane g p.id .lanes l = l) : Pass.onProcess g .lanes p = p := by
  rw [Pass.onProcess, map_onNode_of_value g (fun _ _ => rfl), mapValues_onFlow g (fun _ => rfl)]
  obtain ⟨id, name, executable, laneSet, ns, objects, flows⟩ := p
  cases laneSet with
  | none => rfl
  | some set =>
    have hl : set.lanes.map (Pass.onLane g id .lanes) = set.lanes := (map_congr_left h).trans (map_id' _)
    simp [hl]

/-- Lanes that are bound stay so when their actors are handed on. -/
theorem apply_lanes_actors (m : Model) : Pass.apply g .lanes (Pass.apply g .actors (Pass.apply g .lanes m))
      = Pass.apply g .actors (Pass.apply g .lanes m) := by
  have hp : ∀ p, Pass.onProcess g .lanes (Pass.onProcess g .actors (Pass.onProcess g .lanes p))
      = Pass.onProcess g .actors (Pass.onProcess g .lanes p) := by
    intro p
    refine onProcess_lanes g fun l hl => ?_
    rw [Pass.lanes_onProcess, Pass.lanes_onProcess, map_map] at hl
    obtain ⟨old, -, rfl⟩ := mem_map.mp hl
    exact Pass.onLane_onLane g p.id .lanes old
  simp [Pass.apply_eq, Model.mapProcesses, hp]

/-! ### Any order -/

theorem apply_runPasses {p : Pass} : ∀ {passes : List Pass}, (∀ other ∈ passes,
      other ≠ p ∧ (p = .actors → other ≠ .lanes) ∧ (other = .actors → p ≠ .lanes)) →
    ∀ m, p.apply g (runPasses g passes m) = runPasses g passes (p.apply g m)
  | [], _, m => rfl
  | other :: tl, h, m => by
    obtain ⟨hn, hl, ha⟩ := h other (mem_cons_self ..)
    have hr := apply_runPasses (fun other ho => h other (mem_cons_of_mem _ ho)) (other.apply g m)
    simp only [runPasses, foldl_cons] at hr ⊢
    rw [hr, Pass.apply_comm g hn.symm hl ha]

/-- The passes that are neither about lanes nor about their actors. -/
def Pass.others : List Pass := [.globals, .forms, .emails, .vendor, .calls, .decisions]

theorem apply_apply_comm {a b : Pass} (ha : a ≠ .lanes ∧ a ≠ .actors) (hb : b ≠ .lanes ∧ b ≠ .actors) (m : Model) :
    b.apply given (a.apply given m) = a.apply given (b.apply given m) := by
  by_cases hn : a = b
  · rw [hn]
  · exact Pass.apply_comm given (Ne.symm hn) (fun h => absurd h hb.2) (fun h => absurd h ha.2) m

/-- In every order that binds lanes before it hands their actors on, these two may be run first. -/
theorem runPasses_eq {order : List Pass} (hp : order.Perm Pass.inOrder)
    (hl : [Pass.lanes, Pass.actors].Sublist order) (m : Model) : runPasses g order m
      = runPasses g Pass.others (Pass.apply g .actors (Pass.apply g .lanes m)) := by
  obtain ⟨pre, post, rfl, hbe, haf⟩ := cons_sublist_iff.mp hl
  obtain ⟨xs, ys, rfl⟩ := append_of_mem hbe
  obtain ⟨zs, ws, rfl⟩ := append_of_mem (singleton_sublist.mp haf)
  have hr : (xs ++ ys ++ zs ++ ws).Perm Pass.others := by
    rw [perm_iff_count] at hp ⊢
    intro p
    have hc := hp p
    simp only [Pass.inOrder, Pass.others, count_append, count_cons, count_nil] at hc ⊢
    omega
  have ho : ∀ o ∈ xs ++ ys ++ zs ++ ws, o ≠ .lanes ∧ o ≠ .actors := by
    have hd : ∀ o ∈ Pass.others, o ≠ .lanes ∧ o ≠ .actors := by decide
    exact fun o hm => hd o (hr.mem_iff.mp hm)
  have hbi : ∀ m, Pass.apply g .lanes (runPasses g xs m) = runPasses g xs (Pass.apply g .lanes m) := by
    refine apply_runPasses g fun o hm => ?_
    have hn := ho o (by simp [hm])
    exact ⟨hn.1, by simp, fun h => absurd h hn.2⟩
  have hh : ∀ m, Pass.apply g .actors (runPasses g (xs ++ ys ++ zs) m)
      = runPasses g (xs ++ ys ++ zs) (Pass.apply g .actors m) := by
    refine apply_runPasses g fun o hm => ?_
    have hn := ho o (mem_append_left _ hm)
    exact ⟨hn.2, fun _ => hn.1, by simp⟩
  calc runPasses g (xs ++ Pass.lanes :: ys ++ (zs ++ Pass.actors :: ws)) m
      = runPasses g ws (Pass.apply g .actors (runPasses g (ys ++ zs)
          (Pass.apply g .lanes (runPasses g xs m)))) := by simp [runPasses]
    _ = runPasses g ws (Pass.apply g .actors (runPasses g (xs ++ ys ++ zs)
          (Pass.apply g .lanes m))) := by rw [hbi]; simp [runPasses]
    _ = runPasses g (xs ++ ys ++ zs ++ ws) (Pass.apply g .actors (Pass.apply g .lanes m)) := by
        rw [hh]; simp [runPasses]
    _ = runPasses g Pass.others (Pass.apply g .actors (Pass.apply g .lanes m)) :=
        hr.foldl_eq' (fun a ha b hb m => apply_apply_comm g (ho a ha) (ho b hb) m) _

/-- A pass that is one of some passes about nodes changes nothing when it is run after them once more. -/
theorem apply_runPasses_of_mem {p : Pass} {passes : List Pass} (hn : passes.Nodup)
    (ho : ∀ o ∈ passes, o ≠ .lanes ∧ o ≠ .actors) (hm : p ∈ passes) (hp : p ≠ .globals) (m : Model) :
    p.apply g (runPasses g passes m) = runPasses g passes m := by
  obtain ⟨b, a, rfl⟩ := append_of_mem hm
  have hne := ho p hm
  have ha : ∀ o ∈ a, o ≠ p ∧ (p = .actors → o ≠ .lanes) ∧ (o = .actors → p ≠ .lanes) := by
    intro o hin
    refine ⟨?_, fun h => absurd h hne.2, fun _ => hne.1⟩
    rintro rfl
    exact (nodup_cons.mp (nodup_append.mp hn).2.1).1 hin
  calc p.apply g (runPasses g (b ++ p :: a) m)
      = p.apply g (runPasses g a (p.apply g (runPasses g b m))) := by
        simp [runPasses]
    _ = runPasses g a (p.apply g (runPasses g b m)) := by
        rw [apply_runPasses g ha, Pass.apply_apply g hp]
    _ = runPasses g (b ++ p :: a) m := by simp [runPasses]

/-- The passes are independent. In any order that binds lanes before it hands their actors on, they give the
    model that the enrichment gives, and then each of them but the substitution of variables changes nothing
    when it is run once more. -/
theorem passes_independent {order : List Pass} (hperm : order.Perm Pass.inOrder)
    (hlanes : [Pass.lanes, Pass.actors].Sublist order) (m : Model) :
    runPasses given order m = runPasses given Pass.inOrder m ∧
    (∀ engine, given.globals = given.config.globals → given.accepts = isFor engine →
      runPasses given order m = enrich engine given.config given.organization m) ∧
    ∀ pass : Pass, pass ≠ .globals → pass.apply given (runPasses given order m) = runPasses given order m := by
  have horder := runPasses_eq given hperm hlanes m
  have hsame : runPasses given order m = runPasses given Pass.inOrder m :=
    horder.trans (runPasses_eq given (Perm.refl _) (by decide) m).symm
  refine ⟨hsame, fun engine hglobals haccepts => ?_, fun pass hpass => ?_⟩
  · rw [hsame]
    simp [runPasses, Pass.inOrder, Pass.apply, enrich, hglobals, haccepts]
  · rw [horder]
    have hother : ∀ other ∈ Pass.others, other ≠ .lanes ∧ other ≠ .actors := by decide
    by_cases hmem : pass ∈ Pass.others
    · exact apply_runPasses_of_mem given (by decide) hother hmem hpass _
    · -- lanes and their actors, which were run before all others
      have hcases : pass = .lanes ∨ pass = .actors := by
        cases pass <;> simp [Pass.others] at hmem ⊢
      rcases hcases with rfl | rfl
      · rw [apply_runPasses given fun other h =>
            ⟨(hother other h).1, by simp, fun hactors => absurd hactors (hother other h).2⟩,
          apply_lanes_actors]
      · rw [apply_runPasses given fun other h => ⟨(hother other h).2, fun _ => (hother other h).1, by simp⟩,
          Pass.apply_apply given (by decide)]

def laneOfOne : Model where
  processes := [{
    id := "order"
    laneSet := some { lanes := [{ id := "l", name := some "Sales", nodeRefs := ["t"] }] }
    nodes := [("t", { id := "t", kind := .userTask, name := some "Check" })]
  }]

/-- The lane is assigned to somebody. What the task has is no reference to a form. -/
def assignedLane : Givens where
  config := { processes := [{
    id := "order"
    setting := {
      lanes := [{ name := "Sales", assignee := some "ann" }]
      tasks := [{ name := "Check", formRef := some "ref:form.check.json" }]
    }
  }] }
  organization := none
  globals := []
  accepts := isFor "camunda"

/-- An order of the passes that is quite another. -/
def shuffledPasses : List Pass := [.decisions, .lanes, .vendor, .forms, .actors, .globals, .calls, .emails]

theorem passes_independent_shuffled :
    runPasses assignedLane shuffledPasses laneOfOne = enrich "camunda" assignedLane.config none laneOfOne ∧
    Pass.apply assignedLane .actors (runPasses assignedLane shuffledPasses laneOfOne)
      = runPasses assignedLane shuffledPasses laneOfOne := by
  have hperm : shuffledPasses.Perm Pass.inOrder := by decide
  obtain ⟨-, henrich, hagain⟩ := passes_independent assignedLane hperm (by decide) laneOfOne
  exact ⟨henrich "camunda" rfl rfl, hagain .actors (by decide)⟩

-- The two passes about lanes do not commute: actors that are handed on too early are not there yet.
example : runPasses assignedLane [.actors, .lanes] laneOfOne
    ≠ runPasses assignedLane [.lanes, .actors] laneOfOne := by
  decide +kernel

end ProcessForge.Enrichment
