import ProcessForge.Proofs.Camunda.Manuals

/-! Documents that are written twice. All rounds together are one revision, in which only service tasks and flows get
    another content. Their edits write the same content when they are done twice, and so the second run of
    all rounds succeeds and changes nothing. -/

namespace ProcessForge.Camunda

open Xml Process List Enrichment

/-! ### Parameters of delegates -/

/-- The edits that add parameters to the extensions of a service task. -/
def parameterEdits (parameters : List (String × Option String)) : List Edit := [
  .ensure (.element parametersLabel [] []),
  .within parametersLabel
    ((parameters.filterMap fun (name, value) => (filled? value).map (parameter name)).map Edit.append)]

/-- The parameters with a value, as they are shown. -/
def parameterNodes (parameters : List (String × Option String)) : List Node :=
  parameters.filterMap fun (name, value) => (filled? value).map fun text =>
    .element { name := (extension "inputParameter").bare, attributes := [⟨(Label.plain "name").bare, name⟩] }
      [.text text]

def parameterBlock (nodes : List Node) : Node := .element { name := parametersLabel.bare } nodes

theorem editContent_appendAll (ds : List Draft) : ∀ c : List Node,
    editContent (ds.map Edit.append) c = c ++ ds.map Draft.bare := by
  induction ds with
  | nil => simp
  | cons d tl ih => simp [ih, Edit.onContent]

theorem map_bare_parameters (parameters : List (String × Option String)) :
    (parameters.filterMap fun (name, v) => (filled? v).map (parameter name)).map Draft.bare
      = parameterNodes parameters := by
  rw [map_filterMap]
  refine filterMap_congr fun a _ => ?_
  rw [Option.map_map]
  exact congrArg (Option.map · (filled? a.2)) (funext fun s => by rfl)

section

variable {tl : List Node} (hrest : ∀ node ∈ tl, node.is parametersLabel = false)

include hrest

theorem withinParameters_block (ps : List (String × Option String)) (ns : List Node) :
    Edit.onContent (.within parametersLabel
        ((ps.filterMap fun (name, v) => (filled? v).map (parameter name)).map Edit.append)) (tl ++ [parameterBlock ns])
      = tl ++ [parameterBlock (ns ++ parameterNodes ps)] := by
  rw [parameterBlock, onContent_within (splitAtChild?_append (label_bare _) ns [] hrest), editContent_appendAll,
    map_bare_parameters, editTag_of_not_isOfTag (forall_mem_map.mpr fun _ _ => rfl), parameterBlock]

/-- Parameters are added to the block at the end, whatever stands in front of it. -/
theorem parameterEdits_block (ps : List (String × Option String)) (ns : List Node) :
    editContent (parameterEdits ps) (tl ++ [parameterBlock ns]) = tl ++ [parameterBlock (ns ++ parameterNodes ps)] := by
  have hb : (tl ++ [parameterBlock ns]).any (Node.is parametersLabel) :=
    any_eq_true.mpr ⟨parameterBlock ns, by simp, is_iff.mpr (label_bare _)⟩
  rw [parameterEdits, editContent_cons, editContent_cons, editContent_nil, provides_ensure.same _ hb,
    withinParameters_block hrest]

theorem parameterEdits_new (ps : List (String × Option String)) :
    editContent (parameterEdits ps) tl = tl ++ [parameterBlock (parameterNodes ps)] := by
  have ha : tl.any (Node.is parametersLabel) = false := by simpa using hrest
  rw [parameterEdits, editContent_cons, Edit.onContent, lacks_eq, ha]
  exact withinParameters_block hrest ps []

theorem parameterEdits_blocks (rows : List (List (String × Option String))) : ∀ ns : List Node,
    editContent (rows.flatMap parameterEdits) (tl ++ [parameterBlock ns])
      = tl ++ [parameterBlock (ns ++ rows.flatMap parameterNodes)] := by
  induction rows with
  | nil => simp
  | cons ps rows ih =>
    intro ns
    rw [flatMap_cons, editContent_append, parameterEdits_block hrest, ih, flatMap_cons, append_assoc]

end

/-- What stands at the end after all parameters are replaced. -/
def parameterTail : List (List (String × Option String)) → List Node
  | [] => []
  | rows => [parameterBlock (rows.flatMap parameterNodes)]

def replaceEdits (rows : List (List (String × Option String))) : List Edit :=
  .clear parametersLabel :: rows.flatMap parameterEdits

theorem replaceEdits_eq (rows : List (List (String × Option String))) (c : List Node) :
    editContent (replaceEdits rows) c = removeNodes (Node.is parametersLabel) false c ++ parameterTail rows := by
  have hg := not_mem_removeNodes (p := Node.is parametersLabel) (fun _ => rfl) c false
  rw [replaceEdits, editContent_cons, Edit.onContent]
  cases rows with
  | nil => simp [parameterTail]
  | cons ps rows =>
    rw [flatMap_cons, editContent_append, parameterEdits_new hg, parameterEdits_blocks hg, parameterTail, flatMap_cons]
    exact cons_ne_nil _ _

theorem removeNodes_parameterTail (rows : List (List (String × Option String))) (content : List Node) :
    removeNodes (Node.is parametersLabel) false
        (removeNodes (Node.is parametersLabel) false content ++ parameterTail rows)
      = removeNodes (Node.is parametersLabel) false content := by
  rw [removeNodes_append _ (not_mem_removeNodes (fun _ => rfl) content false)]
  cases rows with
  | nil => simp [parameterTail, removeNodes]
  | cons ps rows =>
    rw [parameterTail, parameterBlock, removeNodes_cons _ _ rfl, Node.is, is_iff.mpr (label_bare _)]
    · exact append_nil _
    · exact cons_ne_nil _ _

theorem replaceEdits_twice (rows : List (List (String × Option String))) (content : List Node) :
    editContent (replaceEdits rows) (editContent (replaceEdits rows) content)
      = editContent (replaceEdits rows) content := by
  rw [replaceEdits_eq, replaceEdits_eq, removeNodes_parameterTail]

theorem replaceEdits_tag (rows : List (List (String × Option String))) (tag : Tag) :
    editTag (replaceEdits rows) tag = tag := by
  refine editTag_of_not_isOfTag (forall_mem_cons.mpr ⟨rfl, fun e he => ?_⟩) tag
  obtain ⟨ps, -, he⟩ := mem_flatMap.mp he
  simp only [parameterEdits, mem_cons, not_mem_nil, or_false] at he
  rcases he with rfl | rfl
  · rfl
  · rfl

/-! ### Contents of service tasks and flows -/

/-- The parameters of a service task, delegate by delegate. -/
def delegateParameters (n : FlowNode) : List (List (String × Option String)) :=
  (if n.hasEmail then [[("configJson", n.emailFile), ("templateFtl", n.emailTemplate)]] else [])
    ++ if isFilled n.restFile then [[("restCallConfig", n.restFile)]] else []

theorem editContent_delegateEdits (delegate : String) (ps : List (String × Option String))
    (es : List Edit) (content : List Node) :
    editContent (delegateEdits delegate ps) (Edit.onContent (.within (bpmn "extensionElements") es) content)
      = Edit.onContent (.within (bpmn "extensionElements") (es ++ parameterEdits ps)) content := by
  exact onContent_within_within _ es (parameterEdits ps) content

theorem editContent_delegateRow (n : FlowNode) (content : List Node) : editContent (delegateRow n) content
    = editContent [.ensureFirst (.element (bpmn "extensionElements") [] []),
        .within (bpmn "extensionElements") (replaceEdits (delegateParameters n))] content := by
  rw [delegateRow, editContent_append]
  simp only [editContent_cons, editContent_nil, replaceEdits, delegateParameters]
  cases n.hasEmail <;> cases isFilled n.restFile <;>
    simp [editContent_delegateEdits]

/-- The first extensions of a content, or new ones, get new parameters in place of all that were there. -/
theorem delegateRow_split (n : FlowNode) (c : List Node) : ∃ b tag i after,
    splitAtChild? (bpmn "extensionElements") (Edit.onContent (.ensureFirst (.element (bpmn "extensionElements") [] []))
      c) = some (b, tag, i, after) ∧ (splitAtChild? (bpmn "extensionElements") c = some (b, tag, i, after) ∨
      splitAtChild? (bpmn "extensionElements") c = none ∧ c = b ++ after ∧
        tag = { name := (bpmn "extensionElements").bare } ∧ i = []) ∧
    editContent (delegateRow n) c = b ++ .element tag
      (removeNodes (Node.is parametersLabel) false i ++ parameterTail (delegateParameters n)) :: after := by
  obtain ⟨b, tag, i, after, hn, -, ho⟩ := provides_ensureFirst.split c
  refine ⟨b, tag, i, after, hn, ?_, ?_⟩
  · rcases ho with hs | ⟨hs, hc, hb⟩
    · exact .inl hs
    · obtain ⟨rfl, rfl⟩ := Node.element.inj hb
      exact .inr ⟨hs, hc, rfl, rfl⟩
  · rw [editContent_delegateRow, editContent_cons, editContent_cons, editContent_nil, onContent_within hn,
      replaceEdits_tag, replaceEdits_eq]

theorem delegateRow_twice (n : FlowNode) (content : List Node) :
    editContent (delegateRow n) (editContent (delegateRow n) content) = editContent (delegateRow n) content := by
  simp only [editContent_delegateRow]
  exact provides_ensureFirst.editContent_twice (fun tag => by simp [replaceEdits_tag])
    (replaceEdits_twice _) content

theorem conditionEdits_twice (c : String) (content : List Node) :
    editContent (conditionEdits c) (editContent (conditionEdits c) content)
      = editContent (conditionEdits c) content := by
  refine provides_ensure.editContent_twice (fun tag => rfl) (fun i => ?_) content
  simp [Edit.onContent, setLeadingText_twice]

/-! ### All rounds in one -/

def IsOfTags (round : Round) : Prop := ∀ label id,
  (∀ edit ∈ round.top label id, edit.isOfTag = true) ∧ ∀ edit ∈ round.below label id, edit.isOfTag = true

theorem WritesExtensions.isOfTags {round : Round} (h : WritesExtensions round) : IsOfTags round := by
  intro l id
  rw [h.1, and_self_iff]
  exact fun e he => (h.2 l id e he).2.isOfTag

theorem processManual_isOfTag (l : Label) (id : Option String) : ∀ e ∈ processManual l id, e.isOfTag := by
  rw [processManual]
  split
  · decide
  · exact forall_mem_nil _

theorem definitionRound_isOfTags : IsOfTags definitionRound := fun l id =>
  ⟨forall_mem_append.mpr ⟨by decide, processManual_isOfTag l id⟩, processManual_isOfTag l id⟩

/-- Only service tasks and flows get another content, and these are different elements. -/
theorem delegates_flows_cases (m : Model) (l : Label) (id : Option String) {P : List Edit → Prop} (hni : P [])
    (hde : ∀ n, l = bpmn "serviceTask" → P (delegateRow n))
    (hfl : ∀ flow, l = bpmn "sequenceFlow" → id.bind (flowsById m).value? = some flow →
      Text.isBlankText (flow.resolved.getD "") = false → P (conditionEdits (flow.resolved.getD ""))) :
    P ((delegateRound m).below l id ++ (flowRound m).below l id) := by
  have hd : (delegateRound m).below l id = [] ∨ l = bpmn "serviceTask" ∧
      ∃ n, id.bind m.node? = some n ∧ (delegateRound m).below l id = (delegateRows n).flatten :=
    manualFor_cases l id
  have hf : (flowRound m).below l id = [] ∨ l = bpmn "sequenceFlow" ∧ ∃ flow, id.bind (flowsById m).value? = some flow ∧
        (flowRound m).below l id = (flowRows flow).flatten := manualFor_cases l id
  rcases hd with hn | ⟨hl, n, -, hr⟩
  · rw [hn]
    rcases hf with hn | ⟨hl, flow, hfo, hr⟩
    · rwa [hn]
    · rw [hr, flowRows]
      split
      · exact hni
      · next hb =>
        exact hfl flow hl hfo (by simpa using hb)
  · rcases hf with hn | ⟨hl', -⟩
    · rw [hn, append_nil, hr, delegateRows]
      split
      · rw [flatten_singleton]
        exact hde n hl
      · exact hni
    · exact absurd (hl.symm.trans hl') (by decide)

theorem delegates_flows_twice (m : Model) (l : Label) (id : Option String) (content : List Node) :
    editContent ((delegateRound m).below l id ++ (flowRound m).below l id)
        (editContent ((delegateRound m).below l id ++ (flowRound m).below l id) content)
      = editContent ((delegateRound m).below l id ++ (flowRound m).below l id) content :=
  delegates_flows_cases (P := fun es => editContent es (editContent es content) = editContent es content)
    m l id (by rw [editContent_nil]) (fun n _ => delegateRow_twice n content)
    fun _ _ _ _ => conditionEdits_twice _ content

theorem editContent_allRounds (m : Model) {pick : Round → Manual} {l : Label} {id : Option String}
    (hp : ∀ r, IsOfTags r → ∀ e ∈ pick r l id, e.isOfTag) (content : List Node) :
    editContent ((allRounds m).flatMap fun r => pick r l id) content
      = editContent (pick (delegateRound m) l id ++ pick (flowRound m) l id) content := by
  have hq : ∀ {r}, IsOfTags r → ∀ content, editContent (pick r l id) content = content :=
    fun hr => editContent_of_isOfTag (hp _ hr)
  simp [allRounds, editContent_append, hq (laneRound_writes m).isOfTags, hq (userTaskRound_writes m).isOfTags,
    hq (vendorRound_writes m).isOfTags, hq (decisionRound_writes m).isOfTags, hq definitionRound_isOfTags]

theorem editContent_tops (m : Model) (l : Label) (id : Option String) (content : List Node) :
    editContent (tops (allRounds m) l id) content
      = editContent ((delegateRound m).below l id ++ (flowRound m).below l id) content :=
  editContent_allRounds m (fun _ hr => (hr l id).1) content

theorem editContent_belows (m : Model) (l : Label) (id : Option String) (content : List Node) :
    editContent (belows (allRounds m) l id) content
      = editContent ((delegateRound m).below l id ++ (flowRound m).below l id) content :=
  editContent_allRounds m (fun _ hr => (hr l id).2) content

theorem allRounds_isStable (m : Model) : (tops (allRounds m)).IsStable ∧ (belows (allRounds m)).IsStable := by
  refine ⟨fun l id c => ?_, fun l id c => ?_⟩
  · rw [editContent_tops, editContent_tops]
    exact delegates_flows_twice m l id c
  · rw [editContent_belows, editContent_belows]
    exact delegates_flows_twice m l id c

variable {m : Model} {t : Document} {ns : List Notice}

theorem allRounds_twice (hm : LanesHave (HasAccepted (isFor "camunda")) m) (d : Document) :
    (d.revise (tops (allRounds m)) (belows (allRounds m))).revise (tops (allRounds m)) (belows (allRounds m))
      = d.revise (tops (allRounds m)) (belows (allRounds m)) := by
  have hs := allRounds_isSound hm
  have ht : (tops (allRounds m)).IsQuiet IsAdded := isQuiet_flatMap fun r hr => (hs r hr).top
  have hb : (belows (allRounds m)).IsQuiet IsAdded := isQuiet_flatMap fun r hr => (hs r hr).below
  obtain ⟨hst, hs'⟩ := allRounds_isStable m
  simp [Document.revise, element_revise_idempotent ht hb (spares_belows hs) hst hs']

/-! ### The second run -/

theorem isVendorSpace_xml (uri : String) : IsVendorSpace ⟨some "xml", uri⟩ := by
  intro h
  exact absurd (Option.some.inj h) (by decide)

theorem isReady_ensureNamespaces {d : Document} (h : d.root.node.All (Tag.HasOnly IsVendorSpace)) :
    IsReady (d.ensureNamespaces spaces) := by
  have hs : ∀ space ∈ spaces, IsVendorSpace space := by
    unfold IsVendorSpace
    decide
  obtain ⟨ha, hd⟩ := ensureNamespaces_hasOnly isSpaceClass_isVendorSpace h hs
  refine ⟨ha, hd "camunda" (by decide) (by decide) fun space hsp hsh => ?_⟩
  rw [hsp hsh]
  decide

theorem generate_of_rounds {b : Bench}
    (h : (rounds m).run ⟨Document.ensureNamespaces { t with coined := 0 } spaces, 1, ns⟩ = (.ok (), b)) :
    generate m t ns = (.ok b.document, b.notices) := by
  rw [generate]
  simp only [h]
  rfl

/-- Generation is idempotent. If the vendor attributes of lanes are those of the engine, no element of the skeleton
    declares their short form for something else, the generation succeeds, and putting the declarations of its
    result in order changes no label, then a second generation from the result succeeds as well, and its result
    shows the same elements, attributes and texts in the same order. -/
theorem generate_idempotent {m : Model} {skeleton out : Document} {notices notices' : List Notice}
    (hvendor : LanesHave (HasAccepted (isFor "camunda")) m)
    (hbound : WellBound [] skeleton.root.node)
    (hshort : ∀ e ∈ skeleton.root.node.elements, ∀ space ∈ e.tag.declared,
      space.short = some "camunda" → space.uri = extensionUri)
    (h : generate m skeleton notices = (.ok out, notices'))
    (hcleanup : (Document.ensureNamespaces { out with coined := 0 } spaces).bare = out.bare) :
    ∀ notices, ∃ again notices', generate m out notices = (.ok again, notices') ∧ again.bare = out.bare := by
  intro notices
  obtain ⟨b, b', hrun, rfl, hb⟩ := generate_rounds h
  have hsound := allRounds_isSound hvendor
  have hkept : IsKept IsAdded IsReady := isKept_declares isSpaceClass_isVendorSpace
  rw [rounds_eq_forM] at hrun
  have hready : IsReady b.document := by
    rw [hb]
    exact isReady_ensureNamespaces (hbound.hasOnly isVendorSpace_xml nofun hshort)
  obtain ⟨hready', hbare, hok⟩ := rounds_run hkept hsound hready hrun
  have hready₁ := isReady_ensureNamespaces (d := { b'.document with coined := 0 }) hready'.hasOnly
  obtain ⟨b₂, hrun₂⟩ := exists_rounds_run (b := ⟨_, 1, notices⟩) hkept hsound hready₁ (hcleanup ▸ hok)
  obtain ⟨-, hbare₂, -⟩ := rounds_run hkept hsound hready₁ hrun₂
  refine ⟨b₂.document, b₂.notices, generate_of_rounds (rounds_eq_forM m ▸ hrun₂), ?_⟩
  calc b₂.document.bare = b'.document.bare.revise (tops (allRounds m)) (belows (allRounds m)) := hcleanup ▸ hbare₂
    _ = (b.document.bare.revise (tops (allRounds m)) (belows (allRounds m))).revise
          (tops (allRounds m)) (belows (allRounds m)) := by rw [← hbare]
    _ = b.document.bare.revise (tops (allRounds m)) (belows (allRounds m)) := allRounds_twice hvendor _
    _ = b'.document.bare := hbare.symm

/-- A service task with parameters in two places, a flow and a lane. -/
def repeatedText : List Char := ["<definitions xmlns=\"http://www.omg.org/spec/BPMN/20100524/MODEL\"",
    " xmlns:camunda=\"http://camunda.org/schema/1.0/bpmn\">", "<process id=\"p\">", "<lane id=\"l\"/>",
    "<serviceTask id=\"t\">", "<extensionElements>", "<camunda:inputOutput/>", "<camunda:inputOutput/>",
    "</extensionElements>", "</serviceTask>", "<sequenceFlow id=\"f\"/>", "</process>",
    "</definitions>"].flatMap String.toList

def repeatedDocument : Document := (parseChars true repeatedText).getD default

/-- A model in which the task has two delegates, the flow a condition and the lane a vendor attribute. -/
def repeatedModel : Model :=
  { processes := [{
      id := "p"
      laneSet := some { lanes := [{ id := "l", actor := some "a", vendorAttributes := [("camunda:k", "1")] }] }
      nodes := [("t", { id := "t", kind := .serviceTask, emailFile := some "e", restFile := some "r" })]
      flows := [("f", { id := "f", resolved := some "x" })] }] }

/-- What is generated from the document with the service task. -/
def repeatedResult : Document := (generate repeatedModel repeatedDocument []).1.toOption.getD default

theorem generate_idempotent_delegates :
    (∃ notices, generate repeatedModel repeatedDocument [] = (.ok repeatedResult, notices)) ∧
    (repeatedResult.root.descendants (extension "inputParameter")).length = 2 ∧
    ∃ again notices, generate repeatedModel repeatedResult [] = (.ok again, notices) ∧
      again.bare = repeatedResult.bare := by
  obtain ⟨hread, hlanes, hshort, hgenerate, hcleanup, hparameters⟩ : (parseChars true repeatedText).isSome = true ∧
      (∀ p ∈ repeatedModel.processes, ∀ lane ∈ p.lanes, ∀ a ∈ lane.vendorAttributes,
        isFor "camunda" a.1 = true) ∧
      (∀ e ∈ repeatedDocument.root.node.elements, ∀ space ∈ e.tag.declared,
        space.short = some "camunda" → space.uri = extensionUri) ∧
      (generate repeatedModel repeatedDocument []).1.toOption.isSome = true ∧
      (Document.ensureNamespaces { repeatedResult with coined := 0 } spaces).bare = repeatedResult.bare ∧
      (repeatedResult.root.descendants (extension "inputParameter")).length = 2 := by
    decide +kernel
  obtain ⟨notices, hresult⟩ := exists_ok hgenerate
  exact ⟨⟨notices, hresult⟩, hparameters,
    generate_idempotent hlanes (wellBound_of_parsed hread) hshort hresult hcleanup []⟩

/-- A lane in a lane. Around both lanes the short form of vendor attributes stands for something else, and the
    inner one declares it again. -/
def crossedText : List Char :=
  ["<definitions xmlns=\"http://www.omg.org/spec/BPMN/20100524/MODEL\">", "<process id=\"p\">",
    "<laneSet id=\"s\" xmlns:camunda=\"urn:other\">", "<lane id=\"a\" name=\"A\">", "<childLaneSet id=\"c\">",
    "<lane id=\"b\" name=\"B\" xmlns:camunda=\"http://camunda.org/schema/1.0/bpmn\"/>", "</childLaneSet>",
    "</lane>", "</laneSet>", "</process>", "</definitions>"].flatMap String.toList

def crossedDocument : Document := (parseChars true crossedText).getD default

/-- The outer lane has an assignee, the inner one a vendor attribute. -/
def crossedConfiguration : Configuration :=
  { processes := [{
      id := "p"
      setting := { lanes := [{ name := "A", assignee := some "x" },
        { name := "B", vendorAttributes := [("camunda:foo", .str "1")] }] } }] }

def crossedModel : Model := written crossedConfiguration none ((Model.ofDocument crossedDocument).toOption.getD default)

/-- What is generated from the document with the two lanes. -/
def crossedResult : Document := (generate crossedModel crossedDocument []).1.toOption.getD default

def crossedAgain : Document := (generate crossedModel crossedResult []).1.toOption.getD default

/-- It is not enough that the root declares no short form for something else. In the first run the outer lane gets
    a made-up short form, and so in the second run the inner lane does not need its own declaration any more.
    Then its vendor attribute is written a second time, with the other namespace. -/
theorem generate_twice_differs : WellBound [] crossedDocument.root.node ∧
    (∀ p ∈ crossedModel.processes, ∀ lane ∈ p.lanes, ∀ a ∈ lane.vendorAttributes,
      isFor "camunda" a.1 = true) ∧
    (∀ space ∈ crossedDocument.root.tag.declared, ∀ asked ∈ spaces, space.short = asked.short → space.uri = asked.uri) ∧
    (∃ notices, generate crossedModel crossedDocument [] = (.ok crossedResult, notices)) ∧
    (Document.ensureNamespaces { crossedResult with coined := 0 } spaces).bare = crossedResult.bare ∧
    (∃ notices, generate crossedModel crossedResult [] = (.ok crossedAgain, notices)) ∧
    crossedAgain.bare ≠ crossedResult.bare := by
  obtain ⟨hread, hlanes, hroot, hgenerate, hcleanup, hgenerate', hbare⟩ : (parseChars true crossedText).isSome = true ∧
      (∀ p ∈ crossedModel.processes, ∀ lane ∈ p.lanes, ∀ a ∈ lane.vendorAttributes,
        isFor "camunda" a.1 = true) ∧
      (∀ space ∈ crossedDocument.root.tag.declared, ∀ asked ∈ spaces,
        space.short = asked.short → space.uri = asked.uri) ∧
      (generate crossedModel crossedDocument []).1.toOption.isSome = true ∧
      (Document.ensureNamespaces { crossedResult with coined := 0 } spaces).bare = crossedResult.bare ∧
      (generate crossedModel crossedResult []).1.toOption.isSome = true ∧
      crossedAgain.bare ≠ crossedResult.bare := by
    decide +kernel
  exact ⟨wellBound_of_parsed hread, hlanes, hroot, exists_ok hgenerate, hcleanup,
    exists_ok hgenerate', hbare⟩

end ProcessForge.Camunda
