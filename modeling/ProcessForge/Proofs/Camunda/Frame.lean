import ProcessForge.Proofs.Camunda.Idempotence
import ProcessForge.Proofs.Xml.Erasure

/-! What the generation of a document leaves alone. If extension attributes, parameters of delegates, conditions
    that are written and the marks of the exporter are erased on both sides, then the generated document and
    the skeleton show the same tree, except that a missing target namespace and missing marks of processes are
    filled in. -/

namespace ProcessForge.Camunda

open Xml Process List Option Enrichment

variable {edit e : Edit} {label l : Label} {m : Model}

/-! ### What is erased -/

/-- A service task without the parameters in its first extensions, and without extensions in which nothing is
    left. -/
def withoutParameters (content : List Node) : List Node :=
  match splitAtChild? (bpmn "extensionElements") content with
  | none => content
  | some (before, tag, inner, after) =>
    let inner := removeNodes (Node.is (extension "inputOutput")) false inner
    if inner.isEmpty && tag.attributes.isEmpty then before ++ after
    else before ++ .element tag inner :: after

def withoutCondition (content : List Node) : List Node :=
  match splitAtChild? (bpmn "conditionExpression") content with
  | none => content
  | some (before, _, _, after) => before ++ after

/-- Whether the flow with an id has a resolved condition that is not blank. -/
def isConditional (m : Model) (id : Option String) : Bool :=
  (id.bind (flowsById m).value?).any fun flow => !Text.isBlankText (flow.resolved.getD "")

/-- What is erased of elements below the root. -/
def elementErasure (m : Model) : Erasure where
  keeps label l := !(carriesExtensions label && l.uri == some extensionUri)
  content label id content :=
    if label = bpmn "serviceTask" then withoutParameters content
    else if label = bpmn "sequenceFlow" ∧ isConditional m id = true then withoutCondition content
    else content

/-- What is erased of the root: also the marks of the exporter and of the modelling program. -/
def rootErasure (m : Model) : Erasure where
  keeps label l := (elementErasure m).keeps label l && !(l == .plain "exporter" || l == .plain "exporterVersion"
      || l.uri == some modelerUri)
  content := (elementErasure m).content

def missingMarks : Manual := fun label _ =>
  if label = bpmn "process" then [.setMissing (.plain "isExecutable") "true"] else []

def missingTarget : Manual := fun label id =>
  .setMissing (.plain "targetNamespace") Defaults.targetNamespace :: missingMarks label id

/-! ### Attributes -/

/-- Whatever attribute an edit writes is one for extensions. -/
def WritesExtension (edit : Edit) : Prop := ∀ l ∈ edit.written?, l.uri = some extensionUri

theorem writesExtension_of_not_isOfTag (h : edit.isOfTag = false) : WritesExtension edit := by
  cases edit with
  | set | setMissing | drop => cases h
  | setText | clear | clearAll | append | ensure | ensureFirst | place | graft | within =>
    intro l hl
    cases hl

theorem writesExtension_of_written (h : edit.written? = some label) (hu : label.uri = some extensionUri) :
    WritesExtension edit := by
  intro l hl
  rw [h, mem_some] at hl
  rw [← hl, hu]

theorem delegateEdits_writesExtension (delegate : String) (ps : List (String × Option String)) :
    ∀ edit ∈ delegateEdits delegate ps, WritesExtension edit :=
  forall_mem_cons.mpr ⟨writesExtension_of_written rfl rfl,
    forall_mem_singleton.mpr (writesExtension_of_not_isOfTag rfl)⟩

/-- The attributes that a round writes are all erased. -/
def IsHidden (m : Model) (round : Round) : Prop := ∀ label id,
  (∀ edit ∈ round.top label id, edit.shows ((elementErasure m).keeps label) = false) ∧
  ∀ edit ∈ round.below label id, edit.shows ((elementErasure m).keeps label) = false

theorem shows_of_writesExtension (hl : carriesExtensions label) (h : WritesExtension e) :
    e.shows ((elementErasure m).keeps label) = false := by
  rw [Edit.shows]
  cases hw : e.written? with
  | none => rfl
  | some l =>
    have hu : l.uri = some extensionUri := h l hw
    simp [elementErasure, hl, hu]

theorem WritesExtensions.hidden {round : Round} (h : WritesExtensions round) : IsHidden m round := by
  intro l id
  rw [h.1, and_self_iff]
  intro e he
  obtain ⟨hl, hs⟩ := h.2 l id e he
  cases hs with
  | set v hu => exact shows_of_writesExtension hl (writesExtension_of_written rfl hu)

theorem delegateRow_writesExtension (n : FlowNode) : ∀ edit ∈ delegateRow n, WritesExtension edit := by
  refine forall_mem_append.mpr ⟨forall_mem_append.mpr ⟨?_, ?_⟩, ?_⟩
  · exact forall_mem_cons.mpr ⟨writesExtension_of_not_isOfTag rfl,
      forall_mem_singleton.mpr (writesExtension_of_not_isOfTag rfl)⟩
  · split
    · exact delegateEdits_writesExtension _ _
    · exact forall_mem_nil _
  · split
    · exact delegateEdits_writesExtension _ _
    · exact forall_mem_nil _

theorem delegateRound_hidden (m : Model) : IsHidden m (delegateRound m) := by
  have hro : ∀ n, ∀ row ∈ delegateRows n, ∀ edit ∈ row, WritesExtension edit := by
    intro n row hr
    rw [delegateRows] at hr
    split at hr
    · exact mem_singleton.mp hr ▸ delegateRow_writesExtension n
    · cases hr
  refine fun l id => and_self_iff.mpr fun edit he => ?_
  obtain ⟨hl, hw⟩ := manualFor_forall hro l id edit he
  exact shows_of_writesExtension (hl ▸ by decide) hw

theorem flowRound_hidden (m : Model) : IsHidden m (flowRound m) := by
  have hro : ∀ flow, ∀ row ∈ flowRows flow, ∀ e ∈ row, ∀ keeps, e.shows keeps = false := by
    intro flow row hr
    rw [flowRows] at hr
    split at hr
    · cases hr
    · rw [mem_singleton.mp hr]
      exact forall_mem_cons.mpr ⟨fun _ => rfl, forall_mem_singleton.mpr fun _ => rfl⟩
  exact fun l id => and_self_iff.mpr fun e he => (manualFor_forall hro l id e he).2 _

variable {shows : Edit → Bool} {content b i after a : List Node} {tag : Tag}

theorem allRounds_shown (m : Model) {pick : Round → Manual} {id : Option String}
    (hp : ∀ r, IsHidden m r → ∀ e ∈ pick r l id, shows e = false) :
    ((allRounds m).flatMap fun r => pick r l id).filter shows = (pick definitionRound l id).filter shows := by
  have hn : ∀ {r}, IsHidden m r → (pick r l id).filter shows = [] := fun hr =>
    filter_eq_nil_iff.mpr fun e he => by simp [hp _ hr e he]
  simp [allRounds, hn (laneRound_writes m).hidden,
    hn (userTaskRound_writes m).hidden, hn (vendorRound_writes m).hidden, hn (delegateRound_hidden m),
    hn (decisionRound_writes m).hidden, hn (flowRound_hidden m), nil_append, append_nil]

/-- Of the attributes of a process, only its mark is kept. -/
theorem processManual_shown (id : Option String)
    (hs : ∀ e, e.shows ((elementErasure m).keeps l) = false → shows e = false) :
    (processManual l id).filter shows = (missingMarks l id).filter shows := by
  rw [missingMarks]
  simp only [processManual]
  split
  · next hl =>
    have hh : shows (.setMissing (extension "historyTimeToLive") Defaults.historyTimeToLive) = false :=
      hs _ (shows_of_writesExtension (by rw [hl]; decide) (writesExtension_of_written rfl rfl))
    simp [filter_cons, hh]
  · rfl

theorem shows_root (e : Edit) (h : e.shows ((elementErasure m).keeps label) = false) :
    e.shows ((rootErasure m).keeps label) = false := by
  rw [Edit.shows] at h ⊢
  cases hw : e.written? with
  | none => rfl
  | some l =>
    rw [hw, any_some] at h
    rw [any_some, rootErasure]
    simp [h]

theorem documentEdits_shown (m : Model) (l : Label) : documentEdits.filter (Edit.shows ((rootErasure m).keeps l))
      = [Edit.setMissing (.plain "targetNamespace") Defaults.targetNamespace].filter
          (Edit.shows ((rootErasure m).keeps l)) := by
  simp [documentEdits, filter_cons, Edit.shows, Edit.written?, rootErasure]

/-! ### Contents -/

theorem withoutParameters_of_split (h : splitAtChild? (bpmn "extensionElements") content = some (b, tag, i, after)) :
    withoutParameters content
      = if (removeNodes (Node.is parametersLabel) false i).isEmpty && tag.attributes.isEmpty then b ++ after
        else b ++ .element tag (removeNodes (Node.is parametersLabel) false i) :: after := by
  rw [withoutParameters, h]

/-- Parameters of delegates are erased, and so are extensions that were added for them. -/
theorem withoutParameters_delegateRow (n : FlowNode) (content : List Node) :
    withoutParameters (editContent (delegateRow n) content) = withoutParameters content := by
  obtain ⟨b, tag, i, a, hn, ho, hr⟩ := delegateRow_split n content
  obtain ⟨-, hl, hb⟩ := splitAtChild?_eq_some hn
  rw [hr, withoutParameters_of_split (splitAtChild?_append hl _ a hb), removeNodes_parameterTail]
  rcases ho with hs | ⟨hs, rfl, rfl, rfl⟩
  · rw [withoutParameters_of_split hs]
  · rw [withoutParameters, hs]
    rfl

theorem withoutCondition_of_split (h : splitAtChild? (bpmn "conditionExpression") content = some (b, tag, i, after)) :
    withoutCondition content = b ++ after := by
  rw [withoutCondition, h]

theorem withoutCondition_conditionEdits (c : String) (content : List Node) :
    withoutCondition (editContent (conditionEdits c) content) = withoutCondition content := by
  obtain ⟨b, tag, i, a, hn, -, ho⟩ := provides_ensure.split content
  rw [conditionEdits, editContent_cons, editContent_cons, editContent_nil,
    withoutCondition_of_split (splitAtChild?_onContent hn [.setText c])]
  rcases ho with hs | ⟨hs, rfl, -⟩
  · rw [withoutCondition_of_split hs]
  · rw [withoutCondition, hs]

theorem content_delegates_flows (m : Model) (l : Label) (id : Option String) (content : List Node) :
    (elementErasure m).content l id (editContent ((delegateRound m).below l id ++ (flowRound m).below l id) content)
      = (elementErasure m).content l id content := by
  refine delegates_flows_cases (P := fun es => (elementErasure m).content l id (editContent es content)
    = (elementErasure m).content l id content) m l id ?_ (fun n hl => ?_) fun flow hl hfl hb => ?_
  · rw [editContent_nil]
  · simp [elementErasure, if_pos hl, withoutParameters_delegateRow]
  · have hc : isConditional m id := by
      rw [isConditional, hfl, any_some, hb, Bool.not_false]
    have hf : l ≠ bpmn "serviceTask" := fun heq => absurd (hl.symm.trans heq) (by decide)
    simp [elementErasure, if_neg hf, if_pos (And.intro hl hc), withoutCondition_conditionEdits]

/-! ### The whole document -/

theorem elementErasure_spares (m : Model) : (elementErasure m).Spares IsAdded := by
  intro label hl
  have hc : carriesExtensions label = false := by
    revert label
    decide
  have ht : label ≠ bpmn "serviceTask" := fun heq => absurd (heq ▸ hl) (by decide)
  have hf : label ≠ bpmn "sequenceFlow" := fun heq => absurd (heq ▸ hl) (by decide)
  exact ⟨fun l => by simp [elementErasure, hc], fun id content => by simp [elementErasure, ht, hf]⟩

theorem missingMarks_isOfTag (l : Label) (id : Option String) : ∀ e ∈ missingMarks l id, e.isOfTag := by
  rw [missingMarks]
  split
  · exact forall_mem_singleton.mpr rfl
  · exact forall_mem_nil _

theorem missingMarks_quiet : missingMarks.IsQuiet IsAdded := by
  intro l id
  rw [missingMarks]
  split
  · exact forall_mem_singleton.mpr (.setMissing _ (by decide))
  · exact forall_mem_nil _

theorem missingTarget_quiet : missingTarget.IsQuiet IsAdded := fun l id =>
  forall_mem_cons.mpr ⟨.setMissing _ (by decide), missingMarks_quiet l id⟩

theorem belows_agrees (m : Model) : (elementErasure m).Agrees (belows (allRounds m)) missingMarks where
  shown l id := by
    rw [belows, allRounds_shown m fun r hr => (hr l id).2]
    exact processManual_shown id fun _ hh => hh
  content l id content := by
    rw [editContent_belows, content_delegates_flows, editContent_of_isOfTag (missingMarks_isOfTag l id)]

theorem tops_agrees (m : Model) : (rootErasure m).Agrees (tops (allRounds m)) missingTarget where
  shown l id := by
    rw [tops, allRounds_shown m fun r hr e he => shows_root e ((hr l id).1 e he),
      missingTarget, ← singleton_append, filter_append, ← documentEdits_shown,
      ← processManual_shown id shows_root, ← filter_append]
    rfl
  content l id content := by
    have ht : ∀ e ∈ missingTarget l id, e.isOfTag := forall_mem_cons.mpr ⟨rfl, missingMarks_isOfTag l id⟩
    rw [editContent_tops, editContent_of_isOfTag ht]
    exact content_delegates_flows m l id content

/-- Generation keeps all the rest. Let the vendor attributes of lanes be those of the engine, and let no element of
    the skeleton declare their short form for something else. If the generation succeeds, then its result and the
    skeleton show the same tree once these are erased on both sides: extension attributes of lanes, nodes and
    processes, the parameters in the first extensions of service tasks with the texts behind them, extensions in
    which nothing is left, the condition of flows whose resolved condition is not blank, and of the root the marks
    of the exporter and of the modelling program. A target namespace of the root and marks of processes that the
    skeleton does not have are filled in. -/
theorem generate_keeps_rest {m : Model} {skeleton out : Document} {notices notices' : List Notice}
    (hvendor : LanesHave (HasAccepted (isFor "camunda")) m)
    (hbound : WellBound [] skeleton.root.node)
    (hshort : ∀ e ∈ skeleton.root.node.elements, ∀ space ∈ e.tag.declared,
      space.short = some "camunda" → space.uri = extensionUri)
    (h : generate m skeleton notices = (.ok out, notices')) :
    out.bare.erase (rootErasure m) (elementErasure m)
      = (skeleton.bare.revise missingTarget missingMarks).erase (rootErasure m) (elementErasure m) := by
  obtain ⟨b, b', hrun, rfl, hb⟩ := generate_rounds h
  have hsound := allRounds_isSound hvendor
  have hready : IsReady b.document := by
    rw [hb]
    exact isReady_ensureNamespaces (hbound.hasOnly isVendorSpace_xml nofun hshort)
  have hskeleton : b.document.bare = skeleton.bare := by
    rw [hb]
    exact ensureNamespaces_bare (d := { skeleton with coined := 0 }) hbound spaces_isProper
  rw [rounds_eq_forM] at hrun
  obtain ⟨-, hbare, -⟩ := rounds_run (isKept_declares isSpaceClass_isVendorSpace) hsound hready hrun
  rw [hbare, hskeleton]
  exact document_erase_revise (elementErasure_spares m) (belows_agrees m)
    (isQuiet_flatMap fun round hround => (hsound round hround).below) missingMarks_quiet (tops_agrees m)
    (isQuiet_flatMap fun round hround => (hsound round hround).top) missingTarget_quiet skeleton.bare

/-- A lane with an assignee, a task with extensions, one without, and a flow, among comments and texts. -/
def framedText : List Char := ["<definitions xmlns=\"http://www.omg.org/spec/BPMN/20100524/MODEL\"",
    " xmlns:camunda=\"http://camunda.org/schema/1.0/bpmn\" exporter=\"x\">", "<!--c-->", "<process id=\"p\">",
    "<lane id=\"l\" camunda:assignee=\"b\" name=\"L\"/>", "<serviceTask id=\"t\">", "a", "<extensionElements>",
    "<camunda:properties/>", "<camunda:inputOutput/>", "b", "</extensionElements>", "</serviceTask>",
    "<serviceTask id=\"u\">", "<incoming>", "f", "</incoming>", "</serviceTask>", "<sequenceFlow id=\"f\"/>",
    "</process>", "</definitions>"].flatMap String.toList

def framedDocument : Document := (parseChars true framedText).getD default

/-- A model in which both tasks have a delegate, the flow has a condition and the lane an actor. -/
def framedModel : Model :=
  { processes := [{
      id := "p"
      laneSet := some { lanes := [{ id := "l", actor := some "a" }] }
      nodes := [("t", { id := "t", kind := .serviceTask, emailFile := some "e" }),
        ("u", { id := "u", kind := .serviceTask, restFile := some "r" })]
      flows := [("f", { id := "f", resolved := some "x" })] }] }

/-- What is generated from the document with the two tasks. -/
def framedResult : Document := (generate framedModel framedDocument []).1.toOption.getD default

theorem generate_keeps_rest_tasks : (∃ notices, generate framedModel framedDocument [] = (.ok framedResult, notices)) ∧
    (framedResult.root.descendants (extension "inputParameter")).length = 2 ∧
    (framedResult.root.descendants (bpmn "conditionExpression")).length = 1 ∧
    framedResult.bare.erase (rootErasure framedModel) (elementErasure framedModel)
      = (framedDocument.bare.revise missingTarget missingMarks).erase (rootErasure framedModel)
          (elementErasure framedModel) := by
  obtain ⟨hread, hlanes, hshort, hgenerate, hparameters, hconditions⟩ : (parseChars true framedText).isSome = true ∧
      (∀ p ∈ framedModel.processes, ∀ lane ∈ p.lanes, ∀ a ∈ lane.vendorAttributes,
        isFor "camunda" a.1 = true) ∧
      (∀ e ∈ framedDocument.root.node.elements, ∀ space ∈ e.tag.declared,
        space.short = some "camunda" → space.uri = extensionUri) ∧
      (generate framedModel framedDocument []).1.toOption.isSome = true ∧
      (framedResult.root.descendants (extension "inputParameter")).length = 2 ∧
      (framedResult.root.descendants (bpmn "conditionExpression")).length = 1 := by
    decide +kernel
  obtain ⟨notices, hresult⟩ := exists_ok hgenerate
  exact ⟨⟨notices, hresult⟩, hparameters, hconditions,
    generate_keeps_rest hlanes (wellBound_of_parsed hread) hshort hresult⟩

end ProcessForge.Camunda
