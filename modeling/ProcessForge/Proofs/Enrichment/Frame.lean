import ProcessForge.Proofs.Enrichment.Independence
import ProcessForge.Sources

/-! What the enrichment leaves as it is. A pass writes to slots of lanes, nodes and flows that are there, and the
    rest of the model is its frame. Main statement: the frame of a model is the same before and after, and in a
    process that is not configured only conditions and the actors of user tasks change. -/

namespace ProcessForge

open List OrderedMap

/-! ### Frames -/

def FlowNode.frame (n : FlowNode) : FlowNode :=
  { id := n.id, kind := n.kind, name := n.name, dataInputs := n.dataInputs, dataOutputs := n.dataOutputs
    timer := n.timer }

def Lane.frame (lane : Lane) : Lane := { id := lane.id, name := lane.name, nodeRefs := lane.nodeRefs }

/-- A flow without its condition as it is written. -/
def SequenceFlow.frame (flow : SequenceFlow) : SequenceFlow :=
  { id := flow.id, name := flow.name, source := flow.source, target := flow.target, resolved := flow.resolved }

def LaneSet.frame (set : LaneSet) : LaneSet := { id := set.id, lanes := set.lanes.map Lane.frame }

/-- A process with the frames of its lanes, nodes and flows under the same keys. -/
def Process.frame (p : Process) : Process :=
  { id := p.id, name := p.name, isExecutable := p.isExecutable, laneSet := p.laneSet.map LaneSet.frame
    nodes := p.nodes.mapValues FlowNode.frame, dataObjects := p.dataObjects
    flows := p.flows.mapValues SequenceFlow.frame }

/-- A model with the frames of its processes. -/
def Model.frame (m : Model) : Model :=
  { id := m.id, targetNamespace := m.targetNamespace, hasCollaboration := m.hasCollaboration
    processes := m.processes.map Process.frame }

namespace Enrichment

variable (given g : Givens)

/-! ### One pass -/

theorem Pass.frame_put (p : Pass) (n : FlowNode) (v : p.Slot) : (p.put n v).frame = n.frame := by
  cases p <;> rfl

theorem Pass.frame_onLane (p : Pass) (id : String) (l : Lane) : (p.onLane given id l).frame = l.frame := by
  cases p <;> rfl

theorem Pass.frame_onFlow (p : Pass) (flow : SequenceFlow) : (p.onFlow given flow).frame = flow.frame := by
  cases p <;> rfl

theorem Pass.frame_onProcess (pa : Pass) (p : Process) : (pa.onProcess given p).frame = p.frame := by
  have hl : (p.laneSet.map fun set => { set with lanes := set.lanes.map (pa.onLane given p.id) }).map
      LaneSet.frame = p.laneSet.map LaneSet.frame := by
    cases p.laneSet <;> simp [LaneSet.frame, Function.comp_def, Pass.frame_onLane]
  have hn : mapValues FlowNode.frame (p.nodes.map fun x => (x.1, pa.onNode given p x.1 x.2))
        = p.nodes.mapValues FlowNode.frame := by
    simp [mapValues, Pass.onNode, Pass.frame_put]
  have hf : (p.flows.mapValues (pa.onFlow given)).mapValues SequenceFlow.frame
      = p.flows.mapValues SequenceFlow.frame := by
    simp [mapValues, Pass.frame_onFlow]
  simp [Process.frame, Pass.onProcess, hl, hn, hf]

/-! ### All passes -/

/-- Passes on a process, one after the other. -/
def onProcess (passes : List Pass) (p : Process) : Process := passes.foldl (fun p pass => pass.onProcess given p) p

theorem runPasses_eq_mapProcesses (passes : List Pass) (m : Model) :
    runPasses g passes m = m.mapProcesses (onProcess g passes) := by
  induction passes generalizing m with
  | nil =>
    have hn : onProcess g [] = id := rfl
    simp [runPasses, hn, Model.mapProcesses]
  | cons p tl ih =>
    have hc : runPasses g (p :: tl) m = runPasses g tl (p.apply g m) := rfl
    rw [hc, ih, Pass.apply_eq]
    simp [Model.mapProcesses, onProcess]

theorem frame_foldl_onProcess (passes : List Pass) (p : Process) : (onProcess g passes p).frame = p.frame := by
  induction passes generalizing p with
  | nil => rfl
  | cons pa tl ih => exact (ih _).trans (pa.frame_onProcess g p)

theorem enrich_eq_mapProcesses (engine : String) (cfg : Configuration) (org : Option Organization)
    (m : Model) : enrich engine cfg org m
      = m.mapProcesses (onProcess ⟨cfg, org, cfg.globals, isFor engine⟩ Pass.inOrder) := by
  rw [← runPasses_eq_mapProcesses]
  rfl

theorem frame_enrich (engine : String) (cfg : Configuration) (org : Option Organization) (m : Model) :
    (enrich engine cfg org m).frame = m.frame := by
  rw [enrich_eq_mapProcesses]
  simp [Model.frame, Model.mapProcesses, Function.comp_def, frame_foldl_onProcess]

/-! ### Processes that are not configured -/

/-- A process has variables in its conditions, and its user tasks have other actors; the rest stays. -/
structure OnlyBindsActors (globals : OrderedMap String) (p p' : Process) : Prop where
  eq : p' = { p with nodes := p'.nodes, flows := p.flows.mapValues (substituted globals) }
  nodes : Forall₂ (fun entry entry' => entry'.1 = entry.1 ∧ (entry'.2 = entry.2 ∨
    entry.2.kind = .userTask ∧ entry'.2 = { entry.2 with actor := entry'.2.actor })) p.nodes p'.nodes

theorem Pass.onProcess_of_unconfigured {pa : Pass} {p : Process} (h : g.config.setting? p.id = none)
    (hg : pa ≠ .globals) (ha : pa ≠ .actors) : pa.onProcess g p = p := by
  have ht : g.tasks p = [] := by simp [Givens.tasks, h]
  have hn : g.nodes p = [] := by simp [Givens.nodes, h]
  have hl : ∀ lane, g.lane? p.id lane = none := fun lane => by simp [Givens.lane?, h]
  have hv : ∀ id n, pa.value g p id n (pa.get n) = pa.get n := by
    intro id n
    cases pa with
    | actors => exact absurd rfl ha
    | globals | lanes => rfl
    | forms | emails | vendor | calls | decisions =>
      simp [Pass.value, ht, hn, settingsFor, lastWritten]
  have ho : ∀ lane, pa.onLane g p.id lane = lane := by
    intro lane
    cases pa with
    | lanes => simp [Pass.onLane, hl, Givens.laneActor]
    | vendor => simp [Pass.onLane, hl, Givens.laneAttributes]
    | globals | actors | forms | emails | calls | decisions => rfl
  have hon : ∀ flow, pa.onFlow g flow = flow := by
    intro flow
    cases pa with
    | globals => exact absurd rfl hg
    | lanes | actors | forms | emails | vendor | calls | decisions => rfl
  rw [Pass.onProcess, laneSet_onLane g ho, map_onNode_of_value g hv, mapValues_onFlow g hon]

theorem onProcess_inOrder_of_unconfigured {p : Process} (h : given.config.setting? p.id = none) :
    onProcess given Pass.inOrder p = Pass.onProcess given .actors (Pass.onProcess given .globals p) := by
  have hs : ∀ {pa : Pass} {q : Process}, q.id = p.id → pa ≠ .globals → pa ≠ .actors → pa.onProcess given q = q :=
    fun hid => Pass.onProcess_of_unconfigured given (hid ▸ h)
  have hl : Pass.onProcess given .lanes (Pass.onProcess given .globals p) = Pass.onProcess given .globals p :=
    hs rfl (by decide) (by decide)
  have hid : (Pass.onProcess given .actors (Pass.onProcess given .globals p)).id = p.id := rfl
  simp only [onProcess, Pass.inOrder, foldl_cons, foldl_nil, hl]
  simp [hs hid]

theorem Pass.onNode_actors (p : Process) (id : String) (n : FlowNode) : Pass.onNode given p .actors id n = n ∨
      n.kind = .userTask ∧ Pass.onNode given p .actors id n
        = { n with actor := (Pass.onNode given p .actors id n).actor } := by
  by_cases hk : n.kind = .userTask
  · exact Or.inr ⟨hk, rfl⟩
  · simp [Pass.onNode, Pass.value, Pass.get, Pass.put, hk]

theorem onlyBindsActors_of_unconfigured {p : Process} (h : g.config.setting? p.id = none) :
    OnlyBindsActors g.globals p (onProcess g Pass.inOrder p) := by
  rw [onProcess_inOrder_of_unconfigured g h]
  have hg : Pass.onProcess g .globals p = { p with flows := p.flows.mapValues (substituted g.globals) } := by
    rw [Pass.onProcess, laneSet_onLane g (fun _ => rfl), map_onNode_of_value g (fun _ _ => rfl)]
    rfl
  rw [hg, Pass.onProcess_of_nodes g (fun _ _ => rfl) (fun _ => rfl)]
  refine ⟨rfl, ?_⟩
  rw [forall₂_map_right_iff, forall₂_same]
  exact fun x _ => ⟨rfl, Pass.onNode_actors g _ x.1 x.2⟩

/-! ### The stage -/

/-- The enrichment always gives sources, of which only the model and the files with variables in them are new. The
    model has the frame that it had before: document, processes, lanes, nodes, data objects and flows are the
    same, in the same order and under the same keys. In a process without an entry in the configuration only
    conditions change, by the values of global variables, and the actors of user tasks. The model that was given is
    a value and stays. -/
theorem enrich_keeps_frame (engine : String) (s : Sources) : ∃ s' notices, (s.enrich engine).run = (.ok s', notices) ∧
    s' = { s with model := s'.model, decisions := s'.decisions, calls := s'.calls, emails := s'.emails } ∧
    s'.model.frame = s.model.frame ∧
    Forall₂ (fun p p' => s.config.setting? p.id = none → OnlyBindsActors s.config.globals p p')
      s.model.processes s'.model.processes := by
  refine ⟨_, _, rfl, rfl, frame_enrich engine s.config s.organization s.model, ?_⟩
  rw [enrich_eq_mapProcesses, Model.mapProcesses, forall₂_map_right_iff, forall₂_same]
  exact fun p _ h =>
    onlyBindsActors_of_unconfigured ⟨s.config, s.organization, s.config.globals, isFor engine⟩ h

end Enrichment

end ProcessForge
