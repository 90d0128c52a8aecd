import Mathlib.Data.List.Nodup
import ProcessForge.Proofs.OrderedMap
import ProcessForge.Proofs.Process.View

/-! What a model says about the document it was read from. Processes come from the elements for processes in their
    order, and flows from the elements for flows with an id. If no two elements for flows have one id, a flow of
    any process is found under its id. -/

namespace ProcessForge.Process

open Xml List OrderedMap

/-! ### Steps that succeed -/

variable {α β : Type} {e root : Element}

theorem exists_of_bind_ok {x : Except Failure α} {f : α → Except Failure β} {b : β}
    (h : x >>= f = .ok b) : ∃ a, x = .ok a ∧ f a = .ok b := by
  cases x with
  | error fl => cases h
  | ok a => exact ⟨a, rfl, h⟩

theorem exists_of_mem_mapM_ok {f : α → Except Failure β} : ∀ {xs : List α} {ys : List β},
    xs.mapM f = .ok ys → ∀ y ∈ ys, ∃ x ∈ xs, f x = .ok y
  | [], ys, h, y, hy => by
    cases h
    cases hy
  | x :: xs, ys, h, y, hy => by
    rw [mapM_cons] at h
    obtain ⟨z, hz, h⟩ := exists_of_bind_ok h
    obtain ⟨zs, hzs, h⟩ := exists_of_bind_ok h
    cases h
    rcases mem_cons.mp hy with rfl | hy
    · exact ⟨x, mem_cons_self .., hz⟩
    · obtain ⟨x', hx', hf'⟩ := exists_of_mem_mapM_ok hzs y hy
      exact ⟨x', mem_cons_of_mem _ hx', hf'⟩

/-! ### Lanes, processes and documents -/

theorem readLane_ok {l : Lane} (h : readLane e = .ok l) : l.vendorAttributes = [] := by
  unfold readLane at h
  split at h
  · cases h
  · cases h
    rfl

theorem readLaneSet_ok {laneSet : LaneSet} (h : readLaneSet e = .ok laneSet) :
    ∀ l ∈ laneSet.lanes, l.vendorAttributes = [] := by
  obtain ⟨ls, hl, h⟩ := exists_of_bind_ok h
  cases h
  intro l hla
  obtain ⟨c, -, hc⟩ := exists_of_mem_mapM_ok hl l hla
  exact readLane_ok hc

def flowEntries (e : Element) : List (String × SequenceFlow) :=
  (identified (e.descendants (bpmn "sequenceFlow"))).map fun entry => (entry.1, readFlow entry.1 entry.2)

theorem readProcess_ok {p : Process} (h : readProcess e = .ok p) :
    p.flows = ofList (flowEntries e) ∧ ∀ l ∈ p.lanes, l.vendorAttributes = [] := by
  unfold readProcess at h
  split at h
  · cases h
  · obtain ⟨laneSet, hl, h⟩ := exists_of_bind_ok h
    obtain ⟨ns, -, h⟩ := exists_of_bind_ok h
    cases h
    refine ⟨rfl, ?_⟩
    cases hf : e.find? (bpmn "laneSet") with
    | none =>
      rw [hf] at hl
      cases hl
      exact nofun
    | some c =>
      rw [hf] at hl
      obtain ⟨f, hs, hl⟩ := exists_of_bind_ok hl
      cases hl
      exact readLaneSet_ok hs

theorem ofDocument_ok {d : Document} {m : Model} (h : Model.ofDocument d = .ok m) :
    d.root.tag.name.stem = "definitions" ∧ (d.root.descendants (bpmn "process")).mapM readProcess = .ok m.processes ∧
    m.targetNamespace = d.root.tag.get? "targetNamespace" := by
  unfold Model.ofDocument at h
  simp only at h
  split at h
  · cases h
  · next hs =>
    obtain ⟨processes, hp, h⟩ := exists_of_bind_ok h
    cases h
    exact ⟨by simpa using hs, hp, rfl⟩

/-! ### Flows by id -/

theorem mem_elementsBelow_trans : ∀ (ns : List Node) {e c : Element}, e ∈ elementsBelow ns →
    c ∈ elementsBelow e.content → c ∈ elementsBelow ns
  | [], e, c, he, _ => by cases he
  | .element tag ns :: tl, e, c, he, hc => by
    rw [elementsBelow_cons, elements_element, cons_append] at he ⊢
    rcases mem_cons.mp he with rfl | he
    · exact mem_cons_of_mem _ (mem_append_left _ hc)
    · exact mem_cons_of_mem _ (mem_append.mpr ((mem_append.mp he).imp (fun he => mem_elementsBelow_trans ns he hc)
        fun he => mem_elementsBelow_trans tl he hc))
  | .text _ :: tl, e, c, he, hc | .comment _ :: tl, e, c, he, hc | .instruction _ _ :: tl, e, c, he, hc =>
    mem_elementsBelow_trans tl he hc

def flowIds (root : Element) : List String := (identified (root.descendants (bpmn "sequenceFlow"))).map Prod.fst

theorem flowEntries_subset (he : e ∈ root.descendants (bpmn "process")) :
    ∀ x ∈ flowEntries e, x ∈ flowEntries root := by
  intro x hen
  obtain ⟨⟨key, c⟩, hc, rfl⟩ := mem_map.mp hen
  refine mem_map.mpr ⟨(key, c), ?_, rfl⟩
  obtain ⟨c', hc', hk⟩ := mem_filterMap.mp hc
  refine mem_filterMap.mpr ⟨c', ?_, hk⟩
  obtain ⟨hb, hl⟩ := mem_filter.mp hc'
  exact mem_filter.mpr ⟨mem_elementsBelow_trans _ (mem_filter.mp he).1 hb, hl⟩

theorem eq_of_mem_flowEntries (hid : (flowIds root).Nodup) {key : String}
    {flow flow' : SequenceFlow} (h : (key, flow) ∈ flowEntries root)
    (h' : (key, flow') ∈ flowEntries root) : flow' = flow := by
  obtain ⟨⟨key₁, c⟩, hc, heq⟩ := mem_map.mp h
  obtain ⟨⟨key₂, c'⟩, hc', he'⟩ := mem_map.mp h'
  obtain ⟨rfl, rfl⟩ := Prod.mk.inj heq
  obtain ⟨rfl, rfl⟩ := Prod.mk.inj he'
  obtain ⟨-, rfl⟩ := Prod.mk.inj (inj_on_of_nodup_map hid hc hc' rfl)
  rfl

section

variable {d : Document} {m : Model} {p : Process}

theorem mem_flowEntries_of_mem_flows (hm : Model.ofDocument d = .ok m) (hp : p ∈ m.processes)
    {x : String × SequenceFlow} (hen : x ∈ p.flows) : x ∈ flowEntries d.root := by
  obtain ⟨-, hpr, -⟩ := ofDocument_ok hm
  obtain ⟨e, he, hr⟩ := exists_of_mem_mapM_ok hpr p hp
  rw [(readProcess_ok hr).1] at hen
  exact flowEntries_subset he x (mem_of_mem_ofList hen)

theorem value?_flows (hm : Model.ofDocument d = .ok m) (hid : (flowIds d.root).Nodup)
    (hp : p ∈ m.processes) {key : String} {flow : SequenceFlow} (hf : (key, flow) ∈ p.flows) :
    (ofList (m.processes.flatMap Process.flows)).value? key = some flow := by
  refine value?_ofList (mem_flatMap.mpr ⟨p, hp, hf⟩) fun b ho => ?_
  obtain ⟨p', hp', ho⟩ := mem_flatMap.mp ho
  exact eq_of_mem_flowEntries hid (mem_flowEntries_of_mem_flows hm hp hf) (mem_flowEntries_of_mem_flows hm hp' ho)

end

end ProcessForge.Process
