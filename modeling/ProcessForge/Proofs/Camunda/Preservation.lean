import ProcessForge.Proofs.Camunda.Phases
import ProcessForge.Proofs.Process.Reading
import ProcessForge.Proofs.Process.SameModel
import ProcessForge.Proofs.Process.Unseen

/-! Emission preserves the process that it was compiled from. The document that is generated from a process
    document is read as the same model again, apart from three things that the emission is there for: conditions
    in the dialect of the engine, marks of processes, and the target namespace. -/

namespace ProcessForge.Camunda

open Xml Process List Enrichment

/-! ### Contents -/

section

variable (s : Sight)

theorem contentView_setLeadingText (t : String) (content : List Node) :
    contentView s (setLeadingText t content) = contentView s content := by
  rw [setLeadingText, contentView_cons, nodeView_leaf s rfl, nil_append, dropTexts]
  induction content with
  | nil => rfl
  | cons n tl ih =>
    cases n with
    | text t => rw [dropWhile_cons_of_pos rfl, ih]; rfl
    | element | comment | instruction => rw [dropWhile_cons_of_neg (by simp [Node.isText])]

theorem leadingText?_setLeadingText (t : String) (ns : List Node) : leadingText? (setLeadingText t ns) = some t := by
  have hn : leadingText? (dropTexts ns) = none := by
    unfold dropTexts
    induction ns with
    | nil => rfl
    | cons n tl ih =>
      cases n with
      | text t => rw [dropWhile_cons_of_pos rfl, ih]
      | element | comment | instruction =>
        rw [dropWhile_cons_of_neg (by simp [Node.isText]), leadingText?_of_not_isText rfl]
  rw [setLeadingText, leadingText?_text, hn, Option.getD_none, String.append_empty]

theorem conditionText_append {pre : List Node} (h : ∀ n ∈ pre, n.is conditionLabel = false)
    (rest : List Node) : conditionText (pre ++ rest) = conditionText rest := by
  induction pre with
  | nil => rfl
  | cons n pre ih =>
    replace ih := ih fun b ho => h b (mem_cons_of_mem _ ho)
    rw [cons_append]
    cases n with
    | element tag t =>
      have ht : tag.is conditionLabel = false := h _ (mem_cons_self ..)
      rw [conditionText_element, ih]
      exact if_neg (by rw [ht]; decide)
    | text | comment | instruction => rw [conditionText_leaf rfl, ih]

theorem contentView_parameterTail (rows : List (List (String × Option String))) :
    contentView s (parameterTail rows) = [] := by
  have hno : ∀ ps, ∀ n ∈ parameterNodes ps, ∀ e ∈ n.elements, isVisible e.tag.name.label = false := by
    intro ps n hn e he
    obtain ⟨⟨name, v⟩, -, hv⟩ := mem_filterMap.mp hn
    obtain ⟨t, -, rfl⟩ := Option.map_eq_some_iff.mp hv
    rw [mem_singleton.mp he]
    exact (by decide : isVisible (extension "inputParameter").bare.label = false)
  refine contentView_eq_nil s _ fun e he => ?_
  obtain ⟨n, hn, he⟩ := mem_elementsBelow he
  unfold parameterTail at hn
  split at hn
  · cases hn
  · rw [mem_singleton.mp hn] at he
    rcases mem_cons.mp he with rfl | he
    · exact (by decide : isVisible parametersLabel.bare.label = false)
    · obtain ⟨n, hn, he⟩ := mem_elementsBelow he
      obtain ⟨ps, -, hn⟩ := mem_flatMap.mp hn
      exact hno ps n hn e he

variable {s}

/-- A child that readers do not look for is provided, and its content changes without being seen. -/
theorem contentView_provided {e : Edit} {l : Label} {ats : List (Label × DraftValue)}
    (h : Provides e l ats) (hla : isVisible l = false) {es : List Edit} {content : List Node}
    (hin : ∀ t, t = [] ∨ (∃ tag, .element tag t ∈ content) → contentView s (editContent es t) = contentView s t) :
    contentView s (editContent [e, .within l es] content) = contentView s content ∧
    leadingText? (editContent [e, .within l es] content) = leadingText? content := by
  obtain ⟨pre, tag, t, post, hn, hl, ho⟩ := h.split content
  obtain ⟨-, ht, -⟩ := splitAtChild?_eq_some hn
  have hh : ∀ {tag' : Tag}, tag'.name = tag.name → ¬ isVisible tag'.name.label := by
    intro tag' hname
    rw [hname, ht, hla]
    exact Bool.false_ne_true
  rw [editContent_cons, editContent_cons, editContent_nil, onContent_within hn, leadingText?_append_cons rfl,
    contentView_append, contentView_cons, nodeView, if_neg (hh (editTag_name es tag)), editTag_name]
  refine ⟨?_, hl⟩
  rcases ho with hs | ⟨-, rfl, hb⟩
  · obtain ⟨rfl, -, -⟩ := splitAtChild?_eq_some hs
    rw [hin t (.inr ⟨tag, by simp⟩), contentView_append, contentView_cons, nodeView, if_neg (hh rfl)]
  · rw [Draft.bare, Draft.bareAll] at hb
    obtain ⟨-, rfl⟩ := Node.element.inj hb
    rw [hin [] (.inl rfl), contentView_append]
    rfl

theorem contentView_delegateRow (n : FlowNode) {content : List Node}
    (h : NoneInside parametersLabel (contentView s content)) :
    contentView s (editContent (delegateRow n) content) = contentView s content ∧
    leadingText? (editContent (delegateRow n) content) = leadingText? content := by
  rw [editContent_delegateRow]
  refine contentView_provided provides_ensureFirst (by decide) fun t hin => ?_
  rw [replaceEdits_eq, contentView_append, contentView_parameterTail, append_nil]
  refine contentView_removeNodes (fun node hn his => ?_) false
  rcases hin with rfl | ⟨tag, hm⟩
  · cases hn
  · have hno := (h.of_mem hm).inner.of_mem hn
    cases node with
    | element tag content => exact hno.nodeView_eq_nil (is_iff.mp his)
    | text | comment | instruction => cases his

/-- Of the edits of a flow only the condition is seen. -/
theorem contentView_conditionEdits (cnd : String) (content : List Node) :
    contentView s (editContent (conditionEdits cnd) content) = contentView s content ∧
    leadingText? (editContent (conditionEdits cnd) content) = leadingText? content := by
  refine contentView_provided provides_ensure (by decide) fun t _ => ?_
  rw [editContent_cons, editContent_nil, Edit.onContent, contentView_setLeadingText]

theorem conditionText_conditionEdits (cnd : String) (ns : List Node) :
    conditionText (editContent (conditionEdits cnd) ns) = some (Text.trim cnd) := by
  obtain ⟨pre, tag, t, post, hn, -⟩ :=
    (@provides_ensure conditionLabel [(⟨some instanceUri, "type"⟩, .text "bpmn:tFormalExpression")]).split ns
  obtain ⟨-, hl, hb⟩ := splitAtChild?_eq_some hn
  rw [conditionEdits, editContent_cons, editContent_cons, editContent_nil, onContent_within hn,
    conditionText_append hb, conditionText_element, if_pos (by rw [is_iff, editTag_name, hl]), editContent_cons,
    editContent_nil, Edit.onContent, leadingText?_setLeadingText, Option.map_some]

end

/-! ### The last rounds -/

/-- A document whose conditions are replaced by those of a model, and whose processes are executable. -/
def conditionSight (m : Model) : Sight := ⟨writtenCondition? m, true⟩

theorem plainAttributes_put_new {tag : Tag} {st : String} (h : tag.get? st = none) (v : String) :
    plainAttributes (tag.put (.plain st) v) = plainAttributes tag ++ [(st, v)] := by
  have hn : ∀ a ∈ tag.attributes, a.name.label ≠ (Label.plain st).bare.label := by
    intro a ha heq
    exact find?_eq_none.mp (Option.map_eq_none_iff.mp h) a ha (beq_iff_eq.mpr heq)
  rw [Tag.put, putAttribute_of_not_mem hn v]
  simp [plainAttributes, Label.bare, Label.plain]

theorem attributes_process (m : Model) {tag : Tag} (h : tag.name.label = bpmn "process") (id : Option String) :
    (conditionSight m).attributes tag = Sight.attributes {} (editTag (processManual tag.name.label id) tag) := by
  have hh : ∀ tag : Tag, plainAttributes (Edit.onTag (.setMissing (extension "historyTimeToLive")
      Defaults.historyTimeToLive) tag) = plainAttributes tag := fun tag =>
    @plainAttributes_editTag [.setMissing (extension "historyTimeToLive") Defaults.historyTimeToLive]
      (forall_mem_singleton.mpr (.setMissing _ (by decide)))
      (forall_mem_singleton.mpr fun l hl => Option.mem_some.mp hl ▸ rfl) tag
  rw [processManual, if_pos h]
  change _ = Sight.attributes {} (Edit.onTag (.setMissing (extension "historyTimeToLive")
    Defaults.historyTimeToLive) (Edit.onTag (.setMissing (.plain "isExecutable") "true") tag))
  simp only [Sight.attributes, hh, conditionSight, is_iff.mpr h, Bool.true_and, Bool.and_true, Bool.false_and,
    Bool.false_eq_true, if_false]
  have hv : tag.value? (.plain "isExecutable") = tag.get? "isExecutable" := rfl
  rw [Edit.onTag, hv]
  cases hm : tag.get? "isExecutable" with
  | none => simp [plainAttributes_put_new hm]
  | some mark => simp

theorem becomes_lastEdits {m : Model} {ns t : List Node} (hc : Forall₂ (Becomes (conditionSight m) {}) ns t)
    (h : NoneInside parametersLabel (contentView (conditionSight m) ns)) (tag : Tag) :
    Becomes (conditionSight m) {} (.element tag ns) (.element (editTag ((belows (lastRounds m)).edits tag) tag)
      (editContent ((belows (lastRounds m)).edits tag) t)) := by
  have hv := contentView_eq_of_becomes hc
  have hle := leadingText?_eq_of_becomes hc
  have hco := conditionText_eq_of_becomes hc
  have hq : ∀ edit ∈ (belows (lastRounds m)).edits tag, QuietEdit IsAdded edit :=
    isQuiet_flatMap (fun r hrou => (lastRounds_isSound m r hrou).below) _ _
  have hlas := lastEdits m tag.name.label (tag.get? "id")
  rw [Manual.edits] at hq ⊢
  generalize belows (lastRounds m) tag.name.label (tag.get? "id") = es at hq hlas ⊢
  have hla : (editTag es tag).name.label = tag.name.label := by rw [editTag_name]
  have hpl : tag.name.label ≠ bpmn "process" → (∀ edit ∈ es, ∀ l ∈ edit.written?, l.uri.isSome) →
      (conditionSight m).attributes tag = Sight.attributes {} (editTag es tag) := by
    intro hn hed
    simp [Sight.attributes, hn, plainAttributes_editTag hq hed]
  have ht : tag.name.label ≠ bpmn "sequenceFlow" → ∀ {content'}, leadingText? content' = leadingText? ns →
      (conditionSight m).text tag ns = Sight.text {} (editTag es tag) content' := by
    intro hn content' heq
    simp [Sight.text, hla, hn, heq]
  cases hlas with
  | @task n hb =>
    obtain ⟨hta, -⟩ := of_boundNode?_eq_some hb
    obtain ⟨hro, hr⟩ := contentView_delegateRow n (hv ▸ h)
    refine .element hla (hpl (by rw [hta]; decide) fun edit he l hl => ?_) (hr.trans hle)
      (ht (by rw [hta]; decide) (hr.trans hle)) (hv.trans hro.symm)
    rw [delegateRow_writesExtension n edit he l hl]
    rfl
  | @flow cnd _ hf hw =>
    obtain ⟨hro, hr⟩ := contentView_conditionEdits (s := {}) cnd t
    refine .element hla (hpl (by rw [hf]; decide) fun edit he => ?_) (hr.trans hle) ?_ (hv.trans hro.symm)
    · simp only [conditionEdits, mem_cons, not_mem_nil, or_false] at he
      intro l hl
      rcases he with rfl | rfl
      · cases hl
      · cases hl
    · simp [Sight.text, conditionSight, is_iff.mpr hf, is_iff.mpr (hla.trans hf), hw,
        conditionText_conditionEdits]
  | process _ hp =>
    rw [editContent_of_isOfTag (processManual_isOfTag _ _)]
    exact .element hla (attributes_process m hp _) hle (ht (by rw [hp]; decide) hle) hv
  | other _ hp hf hed =>
    rw [editContent_of_isOfTag fun edit he => (hed edit he).2.isOfTag]
    refine .element hla (hpl hp fun edit he l hl => ?_) hle ?_ hv
    · cases (hed edit he).2 with
      | set v hu => exact Option.mem_some.mp hl ▸ hu ▸ rfl
    · by_cases heq : tag.name.label = bpmn "sequenceFlow"
      · simp [Sight.text, conditionSight, is_iff.mpr heq, is_iff.mpr (hla.trans heq), hf heq,
          hco]
      · exact ht heq hle

/-- After the last rounds all nodes show what was seen of them before, with the conditions of the model. -/
theorem forall₂_becomes_revise (m : Model) : ∀ ns : List Node,
    NoneInside parametersLabel (contentView (conditionSight m) ns) →
    Forall₂ (Becomes (conditionSight m) {}) ns (reviseAll (belows (lastRounds m)) ns)
  | [], _ => .nil
  | .element tag ns :: tl, h => by
    obtain ⟨hn, hr⟩ := noneInside_cons.mp h
    exact .cons (becomes_lastEdits (forall₂_becomes_revise m ns hn.inner) hn.inner tag) (forall₂_becomes_revise m tl hr)
  | .text _ :: tl, h | .comment _ :: tl, h | .instruction _ _ :: tl, h =>
    .cons (.leaf rfl) (forall₂_becomes_revise m tl (noneInside_cons.mp h).2)

theorem retags_becomes (s : Sight) : Retags (Becomes s s) where
  leaf := .leaf
  element ht hp hc := becomes_of_plain ht.label hp hc
  trans := .trans

/-- The root of a process document gets the attributes of the document only. -/
theorem tops_lastRounds (m : Model) {l : Label} (h : l.stem = "definitions") (id : Option String) :
    tops (lastRounds m) l id = documentEdits := by
  have hn : ∀ stem, stem ≠ "definitions" → l ≠ bpmn stem := fun _ hs heq =>
    hs ((congrArg Label.stem heq).symm.trans h)
  have hp : processManual l id = [] := if_neg (hn _ (by decide))
  simp [tops, lastRounds, definitionRound, hp, delegateRound, decisionRound,
    flowRound, matchedRound, roundOf, manualFor_of_ne (hn "serviceTask" (by decide)),
    manualFor_of_ne (hn "businessRuleTask" (by decide)),
    manualFor_of_ne (hn "sequenceFlow" (by decide))]

theorem get?_documentEdits (tag : Tag) : (editTag documentEdits tag).get? "targetNamespace"
    = some ((tag.get? "targetNamespace").getD Defaults.targetNamespace) := by
  obtain ⟨done, hd, ho⟩ : ∃ done, editTag documentEdits tag = Edit.onTag (.setMissing (.plain "targetNamespace")
      Defaults.targetNamespace) done ∧ done.value? (.plain "targetNamespace") = tag.value? (.plain "targetNamespace") :=
    ⟨_, rfl, by simp [Edit.onTag, value?_put, Label.plain]⟩
  rw [hd, Tag.get?, Tag.get?, ← ho, Edit.onTag]
  cases hv : done.value? (.plain "targetNamespace") with
  | some present => exact hv
  | none => exact (value?_put ..).trans (if_pos rfl)

/-! ### The model that is written -/

def resolvedFlow (config : Configuration) (flow : SequenceFlow) : SequenceFlow :=
  let flow := substituted config.globals flow
  { flow with resolved := flow.expression.map (Expression.flatten .camunda) }

theorem flowsOf_written (c : Configuration) (o : Option Organization) (m : Model) :
    flowsOf (written c o m) = (flowsOf m).map (OrderedMap.mapValues (resolvedFlow c)) := by
  have hd : ∀ m, flowsOf (nameDecisions m) = flowsOf m := by
    refine fun m => flowsOf_mapProcesses ?_ m
    exact fun _ => rfl
  rw [written, hd, resolveFlows, flowsOf_mapFlows, flowsOf_enrich]
  simp [OrderedMap.mapValues, resolvedFlow]

theorem lanesHave_written {d : Document} {m : Model} (hm : Model.ofDocument d = .ok m)
    (c : Configuration) (o : Option Organization) : LanesHave (HasAccepted (isFor "camunda")) (written c o m) := by
  have hr : LanesHave (HasAccepted (isFor "camunda")) m := by
    intro p hp l hl a ha
    obtain ⟨e, -, he⟩ := exists_of_mem_mapM_ok (ofDocument_ok hm).2.1 p hp
    rw [(readProcess_ok he).2 l hl] at ha
    cases ha
  refine LanesHave.mapProcesses (LanesHave.mapProcesses (lanesHave_enrich hr c o) ?_) ?_
  · exact fun _ hp => hp
  · exact fun _ hp => hp

/-! ### The model that is read again -/

/-- A flow that is read again: it has the resolved condition, unless this is blank. -/
def rereadFlow (written flow : SequenceFlow) : SequenceFlow :=
  let condition := written.resolved.getD ""
  if Text.isBlankText condition then flow
  else { flow with expression := some (Text.trim condition) }

/-- A process that is read again: executable if its element has no mark. -/
def rereadProcess (e : Element) (written : OrderedMap SequenceFlow) (p : Process) : Process :=
  { p with
    isExecutable := p.isExecutable || (e.tag.get? "isExecutable").isNone
    flows := zipWith (fun w entry => (entry.1, rereadFlow w.2 entry.2)) written p.flows }

/-- A model that is read again. Processes and flows stand in the same order as in the model that is written. -/
def reread (d : Document) (written m : Model) : Model :=
  { m with
    targetNamespace := some (m.targetNamespace.getD Defaults.targetNamespace)
    processes := zipWith3 rereadProcess (d.root.descendants (bpmn "process"))
      (flowsOf written) m.processes }

section

variable {d : Document} {m : Model} {config c : Configuration} {o : Option Organization}

theorem flow_reread (hm : Model.ofDocument d = .ok m) (hid : (flowIds d.root).Nodup) {p : Process}
    (hp : p ∈ m.processes) {x : String × SequenceFlow} (he : x ∈ p.flows) :
    (conditionSight (written config o m)).flow x.2 = rereadFlow (resolvedFlow config x.2) x.2 := by
  obtain ⟨key, flow⟩ := x
  have hk : flow.id = key := by
    obtain ⟨⟨key', c⟩, -, heq⟩ := mem_map.mp (mem_flowEntries_of_mem_flows hm hp he)
    cases heq
    rfl
  have hf : (flowsById (written config o m)).value? key = some (resolvedFlow config flow) := by
    have hfl : (written config o m).processes.flatMap Process.flows
        = (m.processes.flatMap Process.flows).map fun x => (x.1, resolvedFlow config x.2) := by
      have hw := congrArg flatten (flowsOf_written config o m)
      simpa [flowsOf, flatMap_def, OrderedMap.mapValues, Function.comp_def] using hw
    rw [flowsById, hfl, OrderedMap.ofList_mapValues, OrderedMap.value?_mapValues,
      value?_flows hm hid hp he, Option.map_some]
  simp only [Sight.flow, conditionSight, writtenCondition?, hk, hf, Option.bind_some, rereadFlow]
  split
  · next hw =>
    split at hw
    · cases hw
    · next hb =>
      cases hw
      rw [if_neg hb]
  · next hw =>
    split at hw
    · next hb => rw [if_pos hb]
    · cases hw

theorem zipWith_mapValues {α β : Type} (f : α → β) (g : β → α → α) (xs : OrderedMap α) :
    zipWith (fun w x => (x.1, g w.2 x.2)) (xs.mapValues f) xs = xs.mapValues fun v => g (f v) v := by
  induction xs with
  | nil => rfl
  | cons x tl ih =>
    simp only [OrderedMap.mapValues, map_cons, zipWith_cons_cons] at ih ⊢
    rw [ih]

/-- What is seen of the document with the conditions that are written is the model that is read again. -/
theorem model_reread (hm : Model.ofDocument d = .ok m) (hid : (flowIds d.root).Nodup) (targetNamespace : Option String)
    (ht : targetNamespace = some (m.targetNamespace.getD Defaults.targetNamespace)) :
    { (conditionSight (written c o m)).model d.root m with
        targetNamespace := targetNamespace } = reread d (written c o m) m := by
  have hpr : ∀ p ∈ m.processes, p.flows.mapValues (conditionSight (written c o m)).flow
        = zipWith (fun w x => (x.1, rereadFlow w.2 x.2)) (p.flows.mapValues (resolvedFlow c)) p.flows := by
    intro p hp
    rw [zipWith_mapValues]
    refine map_congr_left fun x he => ?_
    rw [flow_reread hm hid hp he]
  have hz : ∀ (es : List Element) (ps : List Process), (∀ p ∈ ps, p ∈ m.processes) →
      zipWith (conditionSight (written c o m)).process es ps
        = zipWith3 rereadProcess es (ps.map fun p => p.flows.mapValues (resolvedFlow c)) ps := by
    intro es
    induction es with
    | nil => exact fun ps _ => rfl
    | cons e es ih =>
      intro ps hps
      cases ps with
      | nil => rfl
      | cons p ps =>
        rw [zipWith_cons_cons, ih ps fun q hq => hps q (mem_cons_of_mem _ hq), Sight.process,
          hpr p (hps p (mem_cons_self ..))]
        rfl
  rw [reread, Sight.model, hz _ _ fun _ hp => hp, flowsOf_written, ht, flowsOf, map_map]
  rfl

end

/-- Emission preserves the process. Whatever is configured, if the generation succeeds for a document that was
    read, with different ids of flows and without elements of process documents inside of parameters, then the
    new document is read as the same model: processes, lanes, nodes, data objects and flows stay as they are
    and in their order. Only flows with a resolved condition that is not blank have this condition, processes
    without a mark are executable, and a missing target namespace is the default one. The flows of the model
    that is written are those of the model that was read, one by one. -/
theorem generate_preserves_model {dropLayout : Bool} {cs : List Char} {t : Document} {m : Model}
    (hread : parseChars dropLayout cs = some t) (hm : Model.ofDocument t = .ok m) (hids : (flowIds t.root).Nodup)
    (hinside : ∀ e ∈ t.root.descendants (extension "inputOutput"), ∀ c ∈ elementsBelow e.content,
      c.tag.name.label.uri ≠ some bpmnUri) (config : Configuration) (organization : Option Organization) {d : Document}
    {notices notices' : List Notice} (h : generate (written config organization m) t notices = (.ok d, notices')) :
    Model.ofDocument d = .ok (reread t (written config organization m) m) ∧
    (flowsOf (written config organization m)).map OrderedMap.keys = (flowsOf m).map OrderedMap.keys := by
  obtain ⟨hstem, -, htarget⟩ := ofDocument_ok hm
  have hretags := retags_becomes (conditionSight (written config organization m))
  obtain ⟨middle, hmiddle, hout⟩ := generate_phases hretags (fun b b' hnamed hrun => round_retags hretags
    (planLanes_qualifies (lanesHave_written hm config organization) hnamed) hrun) (wellBound_of_parseChars hread) h
  have hfirst := (becomes_bare (conditionSight (written config organization m)) t.root.node).trans
    (bare_node t.root ▸ hmiddle)
  obtain ⟨hlabel, hattributes, hview⟩ := hfirst.of_elements
  have hroot : middle.tag.name.label.stem = "definitions" := (congrArg Label.stem hlabel).trans hstem
  have hget : ∀ stem, middle.tag.get? stem = t.root.tag.get? stem := by
    have hplain : plainAttributes t.root.tag = plainAttributes middle.tag := by
      have hprocess : t.root.tag.name.label ≠ bpmn "process" := fun heq =>
        absurd ((congrArg Label.stem heq).symm.trans hstem) (by decide)
      simpa [Sight.attributes, hlabel, hprocess] using hattributes
    intro stem
    rw [get?_eq_lookup, get?_eq_lookup, hplain]
  have hnone : NoneInside parametersLabel (contentView (conditionSight (written config organization m))
      t.root.content) := by
    refine noneInside_contentView (by decide) _ fun e he hlabel => contentView_eq_nil _ _ fun c hc => ?_
    have huri := hinside e (mem_filter.mpr ⟨he, is_iff.mpr hlabel⟩) c hc
    simp [isVisible, huri]
  rw [Element.revise, Manual.edits, tops_lastRounds _ hroot, editContent_of_isOfTag (by decide)] at hout
  have htag : d.root.tag.bare = editTag documentEdits middle.tag := congrArg Element.tag hout
  have hcontent : contentView {} (bareAll d.root.content) = contentView {} (reviseAll _ middle.content) :=
    congrArg (fun e => contentView {} (Element.content e)) hout
  refine ⟨?_, ?_⟩
  · rw [ofDocument_eq (s := conditionSight (written config organization m)) (d := t) ?_ ?_ ?_, hm]
    · refine congrArg Except.ok (model_reread hm hids _ ?_)
      rw [← bare_get?, htag, get?_documentEdits, hget, htarget]
    · have hname := congrArg Tag.name htag
      rw [editTag_name] at hname
      exact (congrArg (fun name : Name => name.label.stem) hname).trans (hroot.trans hstem.symm)
    · rw [← bare_get?, htag, editTag_id documentEdits_quiet, hget]
    · rw [← contentView_bareAll {} d.root.content, hcontent, hview]
      exact contentView_eq_of_becomes (forall₂_becomes_revise _ _ (hview ▸ hnone))
  · rw [flowsOf_written, map_map]
    refine map_congr_left fun flows _ => ?_
    simp [OrderedMap.keys, OrderedMap.mapValues]

/-- A process with one flow, without a mark. -/
def sampleText : List Char :=
  ["<definitions xmlns=\"", "http://www.omg.org/spec/", "BPMN/20100524/MODEL\">", "<process id=\"p\">",
    "<sequenceFlow id=\"f\">", "<conditionExpression>", "~order.total~", "</conditionExpression>",
    "</sequenceFlow>", "</process>", "</definitions>"].flatMap String.toList

def sampleDocument : Document := (parseChars true sampleText).getD default

def sampleModel : Model := (Model.ofDocument sampleDocument).toOption.getD default

theorem generate_preserves_model_sample : ∃ t m d notices,
    parseChars true sampleText = some t ∧ Model.ofDocument t = .ok m ∧
    generate (written {} none m) t [] = (.ok d, notices) ∧ Model.ofDocument d = .ok (reread t (written {} none m) m) ∧
    (reread t (written {} none m) m).processes.map
      (fun p => (p.isExecutable, p.flows.values.map SequenceFlow.expression)) = [(true, [some "order_total"])] := by
  obtain ⟨hread, hmodel, hids, hinside, hgenerate, hreread⟩ : (parseChars true sampleText).isSome = true ∧
      (Model.ofDocument sampleDocument).toOption.isSome = true ∧
      (flowIds sampleDocument.root).Nodup ∧
      (∀ e ∈ sampleDocument.root.descendants (extension "inputOutput"), ∀ c ∈ elementsBelow e.content,
        c.tag.name.label.uri ≠ some bpmnUri) ∧
      (generate (written {} none sampleModel) sampleDocument []).1.toOption.isSome = true ∧
      (reread sampleDocument (written {} none sampleModel) sampleModel).processes.map
        (fun p => (p.isExecutable, p.flows.values.map SequenceFlow.expression))
          = [(true, [some "order_total"])] := by
    decide +kernel
  have ht : parseChars true sampleText = some sampleDocument := by
    obtain ⟨t, ht⟩ := Option.isSome_iff_exists.mp hread
    rw [sampleDocument, ht, Option.getD_some]
  have hm : Model.ofDocument sampleDocument = .ok sampleModel := by
    rw [sampleModel]
    cases hm : Model.ofDocument sampleDocument with
    | error failure => rw [hm] at hmodel; cases hmodel
    | ok m => rfl
  obtain ⟨notices, hd⟩ := exists_ok hgenerate
  exact ⟨sampleDocument, sampleModel, _, notices, ht, hm, hd,
    (generate_preserves_model ht hm hids hinside {} none hd).1, hreread⟩

end ProcessForge.Camunda
