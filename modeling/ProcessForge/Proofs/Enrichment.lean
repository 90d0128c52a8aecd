import ProcessForge.Enrichment
import ProcessForge.Proofs.OrderedMap

/-! What the passes leave alone. Only two of them change flows, and only one changes the vendor attributes of lanes,
    which are then those that it accepts. -/

namespace ProcessForge.Enrichment

open List

variable {f : Process → ProcessSetting → Process} {q : String → Bool}

/-! ### Flows -/

def flowsOf (m : Model) : List (OrderedMap SequenceFlow) := m.processes.map Process.flows

theorem flowsOf_mapProcesses {f : Process → Process} (h : ∀ p, (f p).flows = p.flows) (m : Model) :
    flowsOf (m.mapProcesses f) = flowsOf m := by
  rw [flowsOf, Model.mapProcesses, map_map]
  exact map_congr_left fun p _ => h p

theorem flowsOf_mapFlows (f : SequenceFlow → SequenceFlow) (m : Model) :
    flowsOf (mapFlows f m) = (flowsOf m).map (OrderedMap.mapValues f) := by
  rw [flowsOf, flowsOf, mapFlows, Model.mapProcesses, map_map, map_map]
  rfl

theorem flowsOf_mapConfigured (h : ∀ p s, (f p s).flows = p.flows) (cfg : Configuration) (m : Model) :
    flowsOf (mapConfigured f cfg m) = flowsOf m := by
  refine flowsOf_mapProcesses (fun p => ?_) m
  split
  · exact h p _
  · rfl

theorem flowsOf_updateNamed (q : NodeKind → Bool)
    (update : Process → NodeSetting → FlowNode → FlowNode) (cfg : Configuration) (m : Model) :
    flowsOf (mapConfigured (fun p s => updateNamed q update s.tasks p) cfg m) = flowsOf m := by
  refine flowsOf_mapConfigured ?_ cfg m
  exact fun _ _ => rfl

theorem flows_mapLanes (f : Lane → Lane) (p : Process) : (mapLanes f p).flows = p.flows := by
  unfold mapLanes
  split
  · rfl
  · rfl

/-- A flow with global variables in its condition. -/
def substituted (globals : OrderedMap String) (flow : SequenceFlow) : SequenceFlow :=
  { flow with expression := flow.expression.map (Expression.substituteGlobals globals) }

/-- The enrichment only puts global variables into conditions. -/
theorem flowsOf_enrich (engine : String) (cfg : Configuration) (org : Option Organization)
    (m : Model) : flowsOf (enrich engine cfg org m)
      = (flowsOf m).map (OrderedMap.mapValues (substituted cfg.globals)) := by
  have hv : ∀ m, flowsOf (mergeVendorAttributes (isFor engine) cfg m) = flowsOf m := by
    refine fun m => flowsOf_mapConfigured ?_ cfg m
    exact fun p _ => flows_mapLanes _ p
  have hl : ∀ m, flowsOf (bindLanes cfg org m) = flowsOf m := by
    refine fun m => flowsOf_mapConfigured ?_ cfg m
    exact fun p _ => flows_mapLanes _ p
  have ha : ∀ m, flowsOf (propagateActors m) = flowsOf m := by
    refine fun m => flowsOf_mapProcesses ?_ m
    exact fun _ => rfl
  rw [enrich, bindDecisions, flowsOf_updateNamed, bindCalls, flowsOf_updateNamed, hv, bindEmails,
    flowsOf_updateNamed, bindForms, flowsOf_updateNamed, ha, hl, substituteVariables,
    flowsOf_mapFlows]
  rfl

/-! ### Vendor attributes of lanes -/

def LanesHave (P : Lane → Prop) (m : Model) : Prop := ∀ p ∈ m.processes, ∀ lane ∈ p.lanes, P lane

theorem lanes_mapLanes (f : Lane → Lane) (p : Process) : (mapLanes f p).lanes = p.lanes.map f := by
  unfold mapLanes
  split
  · rfl
  · next hn => simp [Process.lanes, hn]

section

variable {P : Lane → Prop} {m : Model}

theorem LanesHave.mapProcesses (hm : LanesHave P m) {f : Process → Process}
    (h : ∀ p, (∀ l ∈ p.lanes, P l) → ∀ l ∈ (f p).lanes, P l) : LanesHave P (m.mapProcesses f) := by
  intro p' hp'
  obtain ⟨p, hp, rfl⟩ := mem_map.mp hp'
  exact h p (hm p hp)

theorem LanesHave.mapConfigured (hm : LanesHave P m)
    (h : ∀ p s, (∀ l ∈ p.lanes, P l) → ∀ l ∈ (f p s).lanes, P l) (cfg : Configuration) :
    LanesHave P (mapConfigured f cfg m) := by
  refine hm.mapProcesses fun p hp => ?_
  split
  · exact h p _ hp
  · exact hp

theorem LanesHave.updateNamed (hm : LanesHave P m) (q : NodeKind → Bool)
    (update : Process → NodeSetting → FlowNode → FlowNode) (cfg : Configuration) :
    LanesHave P (Enrichment.mapConfigured (fun p s => updateNamed q update s.tasks p) cfg m) := by
  refine hm.mapConfigured ?_ cfg
  exact fun _ _ hp => hp

theorem forall_mapLanes {f : Lane → Lane} (h : ∀ lane, P lane → P (f lane)) {p : Process}
    (hp : ∀ lane ∈ p.lanes, P lane) : ∀ lane ∈ (mapLanes f p).lanes, P lane := by
  rw [lanes_mapLanes]
  intro lane' hl'
  obtain ⟨lane, hl, rfl⟩ := mem_map.mp hl'
  exact h lane (hp lane hl)

end

def HasAccepted (accepts : String → Bool) (lane : Lane) : Prop := ∀ a ∈ lane.vendorAttributes, accepts a.1 = true

theorem mergeAttributes_accepted {old : OrderedMap String} (h : ∀ a ∈ old, q a.1)
    (extra : OrderedMap Json) : ∀ a ∈ mergeAttributes q old extra, q a.1 := by
  induction extra generalizing old with
  | nil => exact h
  | cons x tl ih =>
    refine ih ?_
    simp only
    split
    · exact h
    · split
      · next hac =>
        intro a ha
        rcases OrderedMap.mem_put ha with ha | rfl
        · exact h a ha
        · exact hac
      · exact h

theorem LanesHave.bindLanes {m : Model} (hm : LanesHave (HasAccepted q) m) (cfg : Configuration)
    (org : Option Organization) : LanesHave (HasAccepted q) (bindLanes cfg org m) := by
  refine hm.mapConfigured (fun p s hp => forall_mapLanes (fun l h => ?_) hp) cfg
  split
  · split
    · exact h
    · exact h
  · exact h

theorem LanesHave.mergeVendorAttributes {m : Model} (hm : LanesHave (HasAccepted q) m) (cfg : Configuration) :
    LanesHave (HasAccepted q) (mergeVendorAttributes q cfg m) := by
  refine hm.mapConfigured (fun p s hp => ?_) cfg
  refine forall_mapLanes (fun l h => ?_) hp
  split
  · exact mergeAttributes_accepted h _
  · exact h

/-- The enrichment gives lanes attributes of the engine only. -/
theorem lanesHave_enrich {engine : String} {m : Model} (hm : LanesHave (HasAccepted (isFor engine)) m)
    (cfg : Configuration) (org : Option Organization) :
    LanesHave (HasAccepted (isFor engine)) (enrich engine cfg org m) := by
  have hv : LanesHave (HasAccepted (isFor engine)) (substituteVariables cfg.globals m) := by
    refine hm.mapProcesses ?_
    exact fun _ hp => hp
  have ha : LanesHave (HasAccepted (isFor engine))
      (propagateActors (bindLanes cfg org (substituteVariables cfg.globals m))) := by
    refine (hv.bindLanes cfg org).mapProcesses ?_
    exact fun _ hp => hp
  -- of the other passes only one changes lanes
  refine LanesHave.updateNamed ?_ _ _ cfg
  refine LanesHave.updateNamed ?_ _ _ cfg
  refine LanesHave.mergeVendorAttributes ?_ cfg
  exact (ha.updateNamed _ _ cfg).updateNamed _ _ cfg

end ProcessForge.Enrichment
