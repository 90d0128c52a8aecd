import ProcessForge.Proofs.OrderedMap
import ProcessForge.Proofs.Process.View

/-! Documents that are seen alike have the same model. Every reader of a part of the model depends on the view of
    its element only. Conditions that replace those of flows, and marks of processes, appear in the model in
    their places. -/

namespace ProcessForge.Process

open Xml List

/-! ### Nodes, lanes and data -/

section

variable {s : Sight} {e e' : Element}

theorem SeenAs.get?_of_label (h : SeenAs s e e') {l : Label} (hla : e.tag.name.label = l)
    (hl : l ≠ bpmn "process") (stem : String) : e'.tag.get? stem = e.tag.get? stem :=
  h.get? fun hp => absurd (hla.symm.trans hp) hl

theorem readLane_eq (h : SeenAs s e e') (hl : e.tag.name.label = bpmn "lane") : readLane e' = readLane e := by
  have hg := h.get?_of_label hl (by decide)
  have hr : (e'.findAll (bpmn "flowNodeRef")).filterMap (fun ref => filled? (textOf? (some ref)))
      = (e.findAll (bpmn "flowNodeRef")).filterMap fun ref => filled? (textOf? (some ref)) := by
    refine filterMap_eq_of_forall₂ (h.findAll (by decide)) fun c c' hc => ?_
    rw [textOf?, textOf?, Option.bind_some, Option.bind_some, hc.2.text? (by rw [hc.1]; decide)]
  rw [readLane, readLane, hg, hg, hr]

theorem readLaneSet_eq (h : SeenAs s e e') (hl : e.tag.name.label = bpmn "laneSet") :
    readLaneSet e' = readLaneSet e := by
  have hla : (e'.descendants (bpmn "lane")).mapM readLane = (e.descendants (bpmn "lane")).mapM readLane :=
    mapM_eq_of_forall₂ (h.descendants (by decide)) fun c c' hc => readLane_eq hc.2 hc.1
  rw [readLaneSet, readLaneSet, hla, h.get?_of_label hl (by decide)]

theorem readDataObject_eq (id : String) (h : SeenAs s e e') (hl : e.tag.name.label = bpmn "dataObjectReference") :
    readDataObject id e' = readDataObject id e := by
  have hg := h.get?_of_label hl (by decide)
  rw [readDataObject, readDataObject, hg, hg]

theorem readDataInput_eq (h : SeenAs s e e')
    (hl : e.tag.name.label = bpmn "dataInputAssociation") : readDataInput e' = readDataInput e := by
  rw [readDataInput, readDataInput, h.get?_of_label hl (by decide),
    h.textOf?_find? (by decide) (by decide), h.textOf?_find? (by decide) (by decide)]

theorem readDataOutput_eq (h : SeenAs s e e') (hl : e.tag.name.label = bpmn "dataOutputAssociation") :
    readDataOutput e' = readDataOutput e := by
  rw [readDataOutput, readDataOutput, h.get?_of_label hl (by decide), h.textOf?_find? (by decide) (by decide)]

theorem readTimer_eq (id : String) (h : SeenAs s e e') : readTimer id e' = readTimer id e := by
  have ht : ((e'.find? (bpmn "timerEventDefinition")).bind fun timer =>
      filled? (textOf? (timer.find? (bpmn "timeDuration"))))
      = (e.find? (bpmn "timerEventDefinition")).bind fun timer =>
        filled? (textOf? (timer.find? (bpmn "timeDuration"))) := by
    rcases h.find? (l := bpmn "timerEventDefinition") (by decide) with
      ⟨hn, hn'⟩ | ⟨c, c', hc, hc', -, hs⟩
    · rw [hn, hn']
    · rw [hc, hc', Option.bind_some, Option.bind_some, hs.textOf?_find? (by decide) (by decide)]
  rw [readTimer, readTimer, ht]

theorem isVisible_tagName (k : NodeKind) : isVisible (bpmn k.tagName) := by
  cases k <;> decide

theorem tagName_ne_process (k : NodeKind) : bpmn k.tagName ≠ bpmn "process" := by
  cases k <;> decide

theorem readNode_eq (k : NodeKind) (id : String) (h : SeenAs s e e')
    (hl : e.tag.name.label = bpmn k.tagName) : readNode k id e' = readNode k id e := by
  have hin : (e'.findAll (bpmn "dataInputAssociation")).map readDataInput
      = (e.findAll (bpmn "dataInputAssociation")).map readDataInput :=
    map_eq_of_forall₂ (h.findAll (by decide)) fun c c' hc => readDataInput_eq hc.2 hc.1
  have ho : (e'.findAll (bpmn "dataOutputAssociation")).map readDataOutput
      = (e.findAll (bpmn "dataOutputAssociation")).map readDataOutput :=
    map_eq_of_forall₂ (h.findAll (by decide)) fun c c' hc => readDataOutput_eq hc.2 hc.1
  rw [readNode, readNode, readTimer_eq id h, h.get?_of_label hl (tagName_ne_process k), hin, ho]

end

/-! ### Flows -/

/-- A flow with the condition that replaces its own. -/
def Sight.flow (s : Sight) (f : SequenceFlow) : SequenceFlow :=
  match s.condition f.id with
  | some condition => { f with expression := some (Text.trim condition) }
  | none => f

variable {s : Sight} {e e' : Element}

theorem readFlow_eq {id : String} (h : SeenAs s e e')
    (hl : e.tag.name.label = bpmn "sequenceFlow") (hid : e.tag.get? "id" = some id) :
    readFlow id e' = s.flow (readFlow id e) := by
  have hg := h.get?_of_label hl (by decide)
  have hl' := h.label.trans hl
  injection h with _ _ ht _
  simp only [Sight.text, is_iff.mpr hl, is_iff.mpr hl', if_true, hid, Option.bind_some,
    Option.bind_fun_none] at ht
  have hr : ∀ d : Element, readFlow id d =
      { id := id, name := d.tag.get? "name", source := d.tag.get? "sourceRef"
        target := d.tag.get? "targetRef", expression := conditionText d.content } := fun _ => rfl
  rw [hr e', hr e, hg, hg, hg, ← ht, Sight.flow]
  cases s.condition id <;> rfl

/-! ### Processes -/

/-- A process with the conditions that replace those of its flows, and with its mark. -/
def Sight.process (s : Sight) (e : Element) (p : Process) : Process :=
  { p with
    isExecutable := p.isExecutable || (s.executable && (e.tag.get? "isExecutable").isNone)
    flows := p.flows.mapValues s.flow }

theorem identified_seen {l : Label} (hl : l ≠ bpmn "process") {es es' : List Element} (h : AllSeenAs s l es es') :
    Forall₂ (fun p p' => p'.1 = p.1 ∧ p.2.tag.get? "id" = some p.1 ∧
      p.2.tag.name.label = l ∧ SeenAs s p.2 p'.2) (identified es) (identified es') := by
  induction h with
  | nil => exact .nil
  | @cons e e' es es' hf _ ih =>
    have hid := hf.2.get?_of_label hf.1 hl "id"
    simp only [identified, filterMap_cons, hid] at ih ⊢
    cases hfi : filled? (e.tag.get? "id") with
    | none => exact ih
    | some id =>
      have hg : e.tag.get? "id" = some id := by
        revert hfi
        unfold filled?
        split
        · exact nofun
        · exact fun h => h
      exact .cons ⟨rfl, hg, hf.1, hf.2⟩ ih

theorem readNodes_eq (h : SeenAs s e e') : readNodes e' = readNodes e := by
  refine congrArg (· >>= _) (congrArg (NodeKind.all.flatMapM ·) (funext fun k => ?_))
  refine mapM_eq_of_forall₂ (identified_seen (tagName_ne_process k) (h.descendants (isVisible_tagName k))) ?_
  rintro ⟨id, node⟩ ⟨id', n'⟩ ⟨rfl, -, hl, hs⟩
  have hn : readNode k id' n' = readNode k id' node := readNode_eq k id' hs hl
  simp [hn]

theorem isExecutable_eq (h : SeenAs s e e') (hl : e.tag.name.label = bpmn "process") :
    (Text.lower ((e'.tag.get? "isExecutable").getD "") == "true")
      = ((Text.lower ((e.tag.get? "isExecutable").getD "") == "true") ||
        (s.executable && (e.tag.get? "isExecutable").isNone)) := by
  rw [h.get?_isExecutable hl]
  cases s.executable with
  | false => simp
  | true =>
    cases e.tag.get? "isExecutable" with
    | none => decide +kernel
    | some mark => simp

theorem readProcess_eq (h : SeenAs s e e') (hl : e.tag.name.label = bpmn "process") :
    readProcess e' = (readProcess e).map (s.process e) := by
  have hg : ∀ stem, stem ≠ "isExecutable" → e'.tag.get? stem = e.tag.get? stem :=
    fun stem hst => h.get? fun _ => hst
  have hla : (e'.find? (bpmn "laneSet")).mapM readLaneSet
      = (e.find? (bpmn "laneSet")).mapM readLaneSet := by
    rcases h.find? (l := bpmn "laneSet") (by decide) with
      ⟨hn, hn'⟩ | ⟨c, c', hc, hc', hlan, hs⟩
    · rw [hn, hn']
    · rw [hc, hc', Option.mapM_some, Option.mapM_some, readLaneSet_eq hs hlan]
  have ho : ∀ read : String × Element → String × DataObject,
      (∀ fd, read fd = (fd.1, readDataObject fd.1 fd.2)) →
      (identified (e'.descendants (bpmn "dataObjectReference"))).map read
        = (identified (e.descendants (bpmn "dataObjectReference"))).map read := by
    intro read hr
    refine map_eq_of_forall₂ (identified_seen (by decide) (h.descendants (by decide))) ?_
    rintro ⟨id, d⟩ ⟨id', d'⟩ ⟨rfl, -, hob, hs⟩
    rw [hr, hr]
    exact congrArg (Prod.mk id') (readDataObject_eq id' hs hob)
  have hf : ∀ read : String × Element → String × SequenceFlow,
      (∀ fd, read fd = (fd.1, readFlow fd.1 fd.2)) →
      (identified (e'.descendants (bpmn "sequenceFlow"))).map read
        = ((identified (e.descendants (bpmn "sequenceFlow"))).map read).map
          fun en => (en.1, s.flow en.2) := by
    intro read hr
    rw [map_map]
    refine map_eq_of_forall₂ (identified_seen (by decide) (h.descendants (by decide))) ?_
    rintro ⟨id, f⟩ ⟨id', f'⟩ ⟨rfl, hid, hfl, hs⟩
    rw [Function.comp_apply, hr, hr]
    exact congrArg (Prod.mk id') (readFlow_eq hs hfl hid)
  simp only [readProcess, hg "id" (by decide), hg "name" (by decide), hla, readNodes_eq h,
    isExecutable_eq h hl]
  rw [ho _ ?objects, hf _ ?flows, OrderedMap.ofList_mapValues]
  case objects => exact fun _ => rfl
  case flows => exact fun _ => rfl
  cases filled? (e.tag.get? "id") with
  | none => rfl
  | some id =>
    cases (e.find? (bpmn "laneSet")).mapM readLaneSet with
    | error x => rfl
    | ok laneSet =>
      cases readNodes e with
      | error x => rfl
      | ok ns => rfl

/-! ### Documents -/

theorem mapM_map_eq_of_forall₂ {α β γ : Type} {R : α → β → Prop} {f : α → Except Failure γ}
    {g : β → Except Failure γ} {k : α → γ → γ} {xs : List α} {ys : List β} (h : Forall₂ R xs ys)
    (hf : ∀ x y, R x y → g y = (f x).map (k x)) : ys.mapM g = (xs.mapM f).map (zipWith k xs) := by
  induction h with
  | nil => rfl
  | @cons x y xs ys hx _ ih =>
    rw [mapM_cons, mapM_cons, hf _ _ hx, ih]
    cases f x with
    | error fl => rfl
    | ok z =>
      cases xs.mapM f with
      | error fl => rfl
      | ok zs => rfl

/-- A model with the conditions that replace those of its flows, and with the marks of its processes. -/
def Sight.model (s : Sight) (root : Element) (m : Model) : Model :=
  { m with processes := zipWith s.process (root.descendants (bpmn "process")) m.processes }

theorem ofDocument_eq {d d' : Document} (hs : d'.root.tag.name.stem = d.root.tag.name.stem)
    (hid : d'.root.tag.get? "id" = d.root.tag.get? "id")
    (hco : contentView s d.root.content = contentView {} d'.root.content) :
    Model.ofDocument d' = (Model.ofDocument d).map fun m =>
      { s.model d.root m with targetNamespace := d'.root.tag.get? "targetNamespace" } := by
  have hp : (d'.root.descendants (bpmn "process")).mapM readProcess
      = ((d.root.descendants (bpmn "process")).mapM readProcess).map
        (zipWith s.process (d.root.descendants (bpmn "process"))) :=
    mapM_map_eq_of_forall₂ (allSeenAs_below (by decide) hco) fun e e' he =>
      readProcess_eq he.2 he.1
  have hc : (d'.root.descendants (bpmn "collaboration")).isEmpty
      = (d.root.descendants (bpmn "collaboration")).isEmpty := by
    have hl : (d.root.descendants (bpmn "collaboration")).length
        = (d'.root.descendants (bpmn "collaboration")).length :=
      Forall₂.length_eq (allSeenAs_below (by decide) hco)
    rw [Bool.eq_iff_iff, isEmpty_iff_length_eq_zero, isEmpty_iff_length_eq_zero, hl]
  simp only [Model.ofDocument, hs, hid, hp, hc]
  split
  · rfl
  · cases (d.root.descendants (bpmn "process")).mapM readProcess with
    | error x => rfl
    | ok processes => rfl

end ProcessForge.Process
