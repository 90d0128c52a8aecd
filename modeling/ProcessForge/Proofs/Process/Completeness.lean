import ProcessForge.Proofs.Process.Reading

/-! Completeness of the reader. A document whose processes and lanes have ids is refused only for an event with a timer
    that is no duration. Any other one gives, for each process, all its elements with an id, the last one of each id. -/

namespace ProcessForge.Process

open Xml List OrderedMap

variable {α β ι : Type} {e : Element}

/-! ### Steps that fail for a stated fault -/

theorem mapM_elim {g : α → Except Failure β} {fault : α → Option Failure} {f : α → β} : ∀ {xs : List α},
    (∀ a ∈ xs, g a = (fault a).elim (.ok (f a)) .error) →
    xs.mapM g = (xs.findSome? fault).elim (.ok (xs.map f)) .error
  | [], _ => rfl
  | a :: xs, h => by
    rw [forall_mem_cons] at h
    rw [mapM_cons, h.1, mapM_elim h.2, findSome?_cons]
    cases fault a with
    | some x => rfl
    | none => cases xs.findSome? fault <;> rfl

theorem flatMapM_elim {g : α → Except Failure (List β)} {fault : α → Option Failure} {f : α → List β}
    (h : ∀ a, g a = (fault a).elim (.ok (f a)) .error) (xs : List α) :
    xs.flatMapM g = (xs.findSome? fault).elim (.ok (xs.flatMap f)) .error := by
  have hl : ∀ (xs : List α) (done : List (List β)), flatMapM.loop g xs done
      = (xs.findSome? fault).elim (.ok (done.reverse.flatten ++ xs.flatMap f)) .error := by
    intro xs
    induction xs with
    | nil => exact fun done => by simp [flatMapM.loop, pure, Except.pure]
    | cons a xs ih =>
      intro done
      rw [flatMapM.loop, h, findSome?_cons]
      cases fault a with
      | some x => rfl
      | none =>
        refine (ih (f a :: done)).trans ?_
        simp
  exact hl xs []

/-! ### Ids and timers -/

theorem filled?_eq_some {v : Option String} {s : String} : filled? v = some s ↔ v = some s ∧ s ≠ "" := by
  unfold filled?
  split
  · grind
  · next hn => exact ⟨fun h => ⟨h, fun hs => hn (hs ▸ h)⟩, And.left⟩

/-- An element with an id that is not empty. -/
def IsIdentified (e : Element) : Prop := ∃ id, e.tag.get? "id" = some id ∧ id ≠ ""

instance : DecidablePred IsIdentified := fun e =>
  decidable_of_iff ((filled? (e.tag.get? "id")).isSome = true) (by
    simp only [Option.isSome_iff_exists, filled?_eq_some, IsIdentified])

/-- The first duration of the first timer definition of an event. -/
def timerText? (e : Element) : Option String :=
  (e.find? (bpmn "timerEventDefinition")).bind fun timer => filled? (textOf? (timer.find? (bpmn "timeDuration")))

/-- An event below a process that has an id, and a timer that is no duration. -/
def HasFaultyTimer (process : Element) : Prop := ∃ kind : NodeKind, kind.isEvent = true ∧
  ∃ event ∈ process.descendants (bpmn kind.tagName), IsIdentified event ∧
    ∃ text, timerText? event = some text ∧ Duration.isValid text = false

def timerOf? (kind : NodeKind) (e : Element) : Option String := if kind.isEvent then timerText? e else none

def timerFault? (kind : NodeKind) (id : String) (e : Element) : Option Failure :=
  ((timerOf? kind e).filter fun text => !Duration.isValid text).map (.invalidTimer id)

/-- What is read of a flow node. -/
def flowNode (kind : NodeKind) (id : String) (e : Element) : FlowNode where
  id := id
  kind := kind
  name := e.tag.get? "name"
  dataInputs := (e.findAll (bpmn "dataInputAssociation")).map readDataInput
  dataOutputs := (e.findAll (bpmn "dataOutputAssociation")).map readDataOutput
  timer := timerOf? kind e

theorem readTimer_elim (id : String) (e : Element) : readTimer id e
    = ((timerText? e).filter fun t => !Duration.isValid t).elim (.ok (timerText? e))
      (fun t => .error (.invalidTimer id t)) := by
  unfold readTimer timerText?
  dsimp only
  split
  · next hn => rw [hn]; rfl
  · next t ht => cases hv : Duration.isValid t <;> simp [ht, Option.filter, hv]

theorem readNode_elim (k : NodeKind) (id : String) (e : Element) :
    readNode k id e = (timerFault? k id e).elim (.ok (flowNode k id e)) .error := by
  unfold readNode timerFault? flowNode timerOf?
  cases k.isEvent with
  | false => rfl
  | true =>
    simp only [if_true, readTimer_elim]
    cases (timerText? e).filter fun t => !Duration.isValid t <;> rfl

def nodeFault? (e : Element) : Option Failure := NodeKind.all.findSome? fun kind =>
  (identified (e.descendants (bpmn kind.tagName))).findSome? fun entry => timerFault? kind entry.1 entry.2

theorem mem_identified {es : List Element} {id : String} :
    (id, e) ∈ identified es ↔ e ∈ es ∧ e.tag.get? "id" = some id ∧ id ≠ "" := by
  simp only [identified, mem_filterMap, Option.map_eq_some_iff, Prod.mk.injEq, ← filled?_eq_some]
  grind

theorem exists_of_timerFault? {k : NodeKind} {id : String} {x : Failure}
    (h : timerFault? k id e = some x) : x.kind = .format ∧ k.isEvent ∧
      ∃ t, timerText? e = some t ∧ Duration.isValid t = false := by
  obtain ⟨t, ht, rfl⟩ := Option.map_eq_some_iff.mp h
  obtain ⟨ht, hv⟩ := Option.filter_eq_some_iff.mp ht
  unfold timerOf? at ht
  split at ht
  · next hk => exact ⟨rfl, hk, t, ht, by simpa using hv⟩
  · cases ht

theorem kind_of_nodeFault? {x : Failure} (h : nodeFault? e = some x) : x.kind = .format := by
  obtain ⟨k, -, h⟩ := exists_of_findSome?_eq_some h
  obtain ⟨en, -, h⟩ := exists_of_findSome?_eq_some h
  exact (exists_of_timerFault? h).1

theorem mem_all (k : NodeKind) : k ∈ NodeKind.all := by cases k <;> decide

theorem nodeFault?_isSome_iff : (nodeFault? e).isSome ↔ HasFaultyTimer e := by
  constructor
  · intro h
    obtain ⟨x, h⟩ := Option.isSome_iff_exists.mp h
    obtain ⟨k, -, h⟩ := exists_of_findSome?_eq_some h
    obtain ⟨⟨id, event⟩, hm, h⟩ := exists_of_findSome?_eq_some h
    obtain ⟨hb, hi⟩ := mem_identified.mp hm
    obtain ⟨-, hk, ht⟩ := exists_of_timerFault? h
    exact ⟨k, hk, event, hb, ⟨id, hi⟩, ht⟩
  · rintro ⟨k, hk, event, hb, ⟨id, hi⟩, t, ht, hv⟩
    have hf : timerFault? k id event = some (.invalidTimer id t) := by
      simp [timerFault?, timerOf?, hk, ht, Option.filter, hv]
    rw [nodeFault?, findSome?_isSome_iff]
    refine ⟨k, mem_all k, findSome?_isSome_iff.mpr ⟨(id, event), mem_identified.mpr ⟨hb, hi⟩, ?_⟩⟩
    rw [hf]
    rfl

instance : DecidablePred HasFaultyTimer := fun _ => decidable_of_iff _ nodeFault?_isSome_iff

/-! ### Maps of elements by id -/

/-- A map that holds, under each id that is not empty, the record of the last item with it. -/
structure Collects (m : OrderedMap α) (items : List ι) (id? : ι → Option String) (record : String → ι → α) : Prop where
  unique : m.keys.Nodup
  keys : ∀ key, key ∈ m.keys ↔ key ≠ "" ∧ ∃ item ∈ items, id? item = some key
  last : ∀ key, key ≠ "" → m.value? key = (items.reverse.find? fun item => id? item == some key).map (record key)

/-- The entries of the items that have an id. -/
def entriesOf (items : List ι) (id? : ι → Option String) (record : String → ι → α) : List (String × α) :=
  items.filterMap fun item => (filled? (id? item)).map fun id => (id, record id item)

theorem collects_ofList (is : List ι) (id? : ι → Option String) (record : String → ι → α) :
    Collects (ofList (entriesOf is id? record)) is id? record := by
  refine ⟨?_, fun key => ?_, fun key hk => ?_⟩
  · rw [ofList, keys_putAll]
    exact nodup_eraseDups _
  · rw [← has_iff, ofList, has_putAll]
    simp only [has, any_nil, Bool.false_or, any_eq_true, entriesOf, mem_filterMap, Option.map_eq_some_iff,
      filled?_eq_some, beq_iff_eq]
    grind
  · rw [ofList, value?_putAll, entriesOf, ← filterMap_reverse, find?_filterMap]
    have hp : ∀ item, ((filled? (id? item)).map fun id => (id, record id item)).any (fun x => x.1 == key)
        = (id? item == some key) := by
      intro item
      rw [Bool.eq_iff_iff, Option.any_eq_true]
      simp only [Option.map_eq_some_iff, filled?_eq_some, beq_iff_eq]
      grind
    simp only [hp]
    cases hf : is.reverse.find? fun item => id? item == some key with
    | none => rfl
    | some item =>
      have hi : id? item = some key := by simpa using find?_some hf
      simp [hi, filled?_eq_some.mpr ⟨rfl, hk⟩]

/-! ### Processes -/

/-- The elements below a process that are flow nodes, kind by kind and in document order within a kind. -/
def nodeElements (e : Element) : List (NodeKind × Element) :=
  NodeKind.all.flatMap fun kind => (e.descendants (bpmn kind.tagName)).map fun node => (kind, node)

def idOf? (e : Element) : Option String := e.tag.get? "id"

def nodeEntries (e : Element) : List (String × FlowNode) :=
  entriesOf (nodeElements e) (fun item => idOf? item.2) fun id item => flowNode item.1 id item.2

def laneOf (e : Element) : Lane where
  id := (idOf? e).getD ""
  name := e.tag.get? "name"
  nodeRefs := (e.findAll (bpmn "flowNodeRef")).filterMap fun ref => filled? (textOf? (some ref))

def laneSetOf (e : Element) : LaneSet := { id := idOf? e, lanes := (e.descendants (bpmn "lane")).map laneOf }

/-- What is read of a process. -/
def processOf (e : Element) : Process where
  id := (idOf? e).getD ""
  name := e.tag.get? "name"
  isExecutable := Text.lower ((e.tag.get? "isExecutable").getD "") == "true"
  laneSet := (e.find? (bpmn "laneSet")).map laneSetOf
  nodes := ofList (nodeEntries e)
  dataObjects := ofList (entriesOf (e.descendants (bpmn "dataObjectReference")) idOf? readDataObject)
  flows := ofList (entriesOf (e.descendants (bpmn "sequenceFlow")) idOf? readFlow)

theorem map_identified (es : List Element) (record : String → Element → α) :
    (identified es).map (fun x => (x.1, record x.1 x.2)) = entriesOf es idOf? record := by
  simp only [identified, entriesOf, map_filterMap, Option.map_map]
  rfl

theorem readNodes_elim (e : Element) : readNodes e = (nodeFault? e).elim (.ok (ofList (nodeEntries e))) .error := by
  have hk : ∀ k : NodeKind, ((identified (e.descendants (bpmn k.tagName))).mapM fun x =>
      readNode k x.1 x.2 >>= fun n => pure (x.1, n))
      = ((identified (e.descendants (bpmn k.tagName))).findSome? fun x =>
        timerFault? k x.1 x.2).elim (.ok ((identified (e.descendants (bpmn k.tagName))).map fun x =>
          (x.1, flowNode k x.1 x.2))) .error := by
    intro k
    refine mapM_elim fun x _ => ?_
    rw [readNode_elim]
    cases timerFault? k x.1 x.2 <;> rfl
  have he : (NodeKind.all.flatMap fun k => (identified (e.descendants (bpmn k.tagName))).map fun x =>
      (x.1, flowNode k x.1 x.2)) = nodeEntries e := by
    simp only [map_identified, nodeEntries, nodeElements, entriesOf, filterMap_flatMap, filterMap_map]
    rfl
  refine (congrArg (· >>= fun xs => pure (ofList xs)) (flatMapM_elim hk NodeKind.all)).trans ?_
  rw [he, ← nodeFault?]
  cases nodeFault? e <;> rfl

theorem readLaneSet_eq_ok (h : ∀ l ∈ e.descendants (bpmn "lane"), IsIdentified l) :
    readLaneSet e = .ok (laneSetOf e) := by
  have hl : ∀ l ∈ e.descendants (bpmn "lane"), readLane l = Option.elim none (.ok (laneOf l)) Except.error := by
    intro l hm
    obtain ⟨id, hi, -⟩ := h l hm
    simp [readLane, laneOf, idOf?, hi]
  rw [readLaneSet, mapM_elim hl, findSome?_eq_none_iff.mpr fun _ _ => rfl]
  rfl

theorem readProcess_elim (hi : IsIdentified e) (hl : ∀ set ∈ e.find? (bpmn "laneSet"),
    ∀ l ∈ set.descendants (bpmn "lane"), IsIdentified l) :
    readProcess e = (nodeFault? e).elim (.ok (processOf e)) .error := by
  have hs : (e.find? (bpmn "laneSet")).mapM readLaneSet = .ok ((e.find? (bpmn "laneSet")).map laneSetOf) := by
    cases hf : e.find? (bpmn "laneSet") with
    | none => rfl
    | some set =>
      rw [Option.mapM_some, readLaneSet_eq_ok (hl set hf)]
      rfl
  obtain ⟨id, hi⟩ := hi
  unfold readProcess
  rw [filled?_eq_some.mpr hi, hs, readNodes_elim]
  cases nodeFault? e with
  | some x => rfl
  | none =>
    simp only [map_identified, processOf, idOf?, hi.1]
    rfl

/-- A process as it is read from its element. -/
structure IsReading (e : Element) (p : Process) : Prop where
  nodes : Collects p.nodes (nodeElements e) (fun item => idOf? item.2) fun id item => flowNode item.1 id item.2
  flows : Collects p.flows (e.descendants (bpmn "sequenceFlow")) idOf? readFlow
  dataObjects : Collects p.dataObjects (e.descendants (bpmn "dataObjectReference")) idOf? readDataObject
  nodeIds : ∀ entry ∈ p.nodes, entry.2.id = entry.1
  flowIds : ∀ entry ∈ p.flows, entry.2.id = entry.1
  objectIds : ∀ entry ∈ p.dataObjects, entry.2.id = entry.1
  timers : ∀ entry ∈ p.nodes, ∀ text, entry.2.timer = some text →
    entry.2.kind.isEvent = true ∧ Duration.isValid text = true
  lanes : ∀ lane ∈ p.lanes, "" ∉ lane.nodeRefs

theorem eq_of_mem_entriesOf {is : List ι} {id? : ι → Option String} {record : String → ι → α}
    {x : String × α} (h : x ∈ ofList (entriesOf is id? record)) :
    ∃ item ∈ is, id? item = some x.1 ∧ x.1 ≠ "" ∧ x.2 = record x.1 item := by
  obtain ⟨item, hm, he⟩ := mem_filterMap.mp (mem_of_mem_ofList h)
  obtain ⟨id, hid, rfl⟩ := Option.map_eq_some_iff.mp he
  obtain ⟨hi, hn⟩ := filled?_eq_some.mp hid
  exact ⟨item, hm, hi, hn, rfl⟩

theorem isReading_processOf (h : nodeFault? e = none) : IsReading e (processOf e) := by
  refine ⟨collects_ofList .., collects_ofList .., collects_ofList .., fun x he => ?_, fun x he => ?_,
    fun x he => ?_, fun x he text ht => ?_, fun l hm => ?_⟩
  · obtain ⟨item, -, -, -, hr⟩ := eq_of_mem_entriesOf he
    rw [hr]
    rfl
  · obtain ⟨item, -, -, -, hr⟩ := eq_of_mem_entriesOf he
    rw [hr]
    rfl
  · obtain ⟨item, -, -, -, hr⟩ := eq_of_mem_entriesOf he
    rw [hr]
    rfl
  · obtain ⟨⟨k, n⟩, hm, hi, hn, hr⟩ := eq_of_mem_entriesOf he
    obtain ⟨b, -, hm⟩ := mem_flatMap.mp hm
    obtain ⟨c, hb, hc⟩ := mem_map.mp hm
    obtain ⟨rfl, rfl⟩ := Prod.mk.inj hc
    rw [hr] at ht ⊢
    have hk : b.isEvent ∧ timerText? c = some text := by
      have ht : (if b.isEvent then timerText? c else none) = some text := ht
      split at ht
      · next hk => exact ⟨hk, ht⟩
      · cases ht
    refine ⟨hk.1, ?_⟩
    by_contra hv
    have hf : HasFaultyTimer e := ⟨b, hk.1, c, hb, ⟨x.1, hi, hn⟩, text, hk.2, by simpa using hv⟩
    rw [← nodeFault?_isSome_iff, h] at hf
    cases hf
  · have hm : l ∈ ((processOf e).laneSet.map LaneSet.lanes).getD [] := hm
    intro hr
    cases hf : e.find? (bpmn "laneSet") with
    | none => simp [processOf, hf] at hm
    | some set =>
      simp only [processOf, hf, Option.map_some, Option.getD_some, laneSetOf, mem_map] at hm
      obtain ⟨c, -, rfl⟩ := hm
      obtain ⟨ref, -, hr⟩ := mem_filterMap.mp hr
      exact (filled?_eq_some.mp hr).2 rfl

/-- A document of processes and lanes with ids is refused exactly for an event whose timer is no duration. Otherwise
    each process holds its flow nodes, flows and data objects by id, the last one of each. -/
theorem ofDocument_complete (d : Document) (hr : d.root.tag.name.stem = "definitions")
    (hi : ∀ process ∈ d.root.descendants (bpmn "process"), IsIdentified process)
    (hl : ∀ process ∈ d.root.descendants (bpmn "process"), ∀ set ∈ process.find? (bpmn "laneSet"),
      ∀ lane ∈ set.descendants (bpmn "lane"), IsIdentified lane) :
    ((∃ failure, Model.ofDocument d = .error failure ∧ failure.kind = .format) ↔
      ∃ process ∈ d.root.descendants (bpmn "process"), HasFaultyTimer process) ∧
    ((¬∃ process ∈ d.root.descendants (bpmn "process"), HasFaultyTimer process) →
      ∃ m, Model.ofDocument d = .ok m ∧ Forall₂ IsReading (d.root.descendants (bpmn "process")) m.processes) := by
  have hp := mapM_elim fun process hm => readProcess_elim (hi process hm) (hl process hm)
  have hd : Model.ofDocument d = ((d.root.descendants (bpmn "process")).findSome? nodeFault?).elim (.ok {
      id := d.root.tag.get? "id", targetNamespace := d.root.tag.get? "targetNamespace"
      hasCollaboration := !(d.root.descendants (bpmn "collaboration")).isEmpty
      processes := (d.root.descendants (bpmn "process")).map processOf }) .error := by
    simp only [Model.ofDocument, hr, bne_self_eq_false, Bool.false_eq_true, if_false, hp]
    cases (d.root.descendants (bpmn "process")).findSome? nodeFault? <;> rfl
  have hf : ((d.root.descendants (bpmn "process")).findSome? nodeFault?).isSome = true ↔
      ∃ process ∈ d.root.descendants (bpmn "process"), HasFaultyTimer process := by
    simp only [findSome?_isSome_iff, nodeFault?_isSome_iff]
  rw [← hf, hd]
  cases hs : (d.root.descendants (bpmn "process")).findSome? nodeFault? with
  | some failure =>
    obtain ⟨process, -, hn⟩ := exists_of_findSome?_eq_some hs
    exact ⟨⟨fun _ => rfl, fun _ => ⟨failure, rfl, kind_of_nodeFault? hn⟩⟩, fun h => absurd rfl h⟩
  | none =>
    refine ⟨⟨?_, fun h => by cases h⟩, fun _ => ⟨_, rfl, ?_⟩⟩
    · rintro ⟨failure, h, -⟩
      cases h
    · rw [forall₂_map_right_iff, forall₂_same]
      exact fun process hm => isReading_processOf (findSome?_eq_none_iff.mp hs process hm)

def element (stem : String) (id : Option String) (content : List Node) : Node :=
  .element ⟨⟨some ⟨none, bpmnUri⟩, stem⟩, [], id.toList.map fun id => ⟨.plain "id", id⟩⟩ content

/-- Two elements of one id inside a part of a process, the second one with a timer. -/
def timed (text : String) : Document where
  root := ⟨⟨.plain "definitions", [], []⟩, [element "process" (some "p") [
    element "laneSet" none [element "lane" (some "l") [element "flowNodeRef" none [.text " "]]],
    element "subProcess" none [element "startEvent" (some "s") [], element "intermediateCatchEvent" (some "s") [
      element "timerEventDefinition" none [element "timeDuration" none [.text text]]]]]]⟩

theorem ofDocument_complete_timed : (∃ m, Model.ofDocument (timed " PT5M ") = .ok m ∧
      Forall₂ IsReading ((timed " PT5M ").root.descendants (bpmn "process")) m.processes) ∧
    ∃ failure, Model.ofDocument (timed "5 min") = .error failure ∧ failure.kind = .format := by
  have hi : ∀ text ∈ [" PT5M ", "5 min"],
      (∀ process ∈ (timed text).root.descendants (bpmn "process"), IsIdentified process) ∧
      ∀ process ∈ (timed text).root.descendants (bpmn "process"), ∀ set ∈ process.find? (bpmn "laneSet"),
        ∀ lane ∈ set.descendants (bpmn "lane"), IsIdentified lane := by
    decide +kernel
  have hf : ¬∃ process ∈ (timed " PT5M ").root.descendants (bpmn "process"), HasFaultyTimer process := by
    decide +kernel
  have hb : ∃ process ∈ (timed "5 min").root.descendants (bpmn "process"), HasFaultyTimer process := by
    decide +kernel
  rw [forall_mem_cons, forall_mem_singleton] at hi
  exact ⟨(ofDocument_complete _ rfl hi.1.1 hi.1.2).2 hf, (ofDocument_complete _ rfl hi.2.1 hi.2.2).1.mpr hb⟩

end ProcessForge.Process
