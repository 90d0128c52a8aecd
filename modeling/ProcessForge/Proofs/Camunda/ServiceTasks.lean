import ProcessForge.Proofs.Camunda.Phases

/-! Delegates of service tasks. Main statement: a service task that sends e-mails or makes calls gets its delegate and,
    in its first extensions, one block of parameters, for whatever the skeleton had there, and all other elements
    keep their content. -/

namespace ProcessForge.Camunda

open Xml Process List Enrichment

/-! ### What a service task gets -/

/-- The files of a service task, by the names of their parameters. -/
def taskFiles (n : FlowNode) : List (String × Option String) :=
  [("configJson", n.emailFile), ("templateFtl", n.emailTemplate), ("restCallConfig", n.restFile)]

/-- The delegate of a service task. The one for calls wins. -/
def delegateOf (n : FlowNode) : String :=
  if isFilled n.restFile then "$\x7brestCallDelegate\x7d" else "$\x7bsendEmailDelegate\x7d"

/-- The first extensions of a content, or new ones behind its leading texts, get the parameters of a node in one block,
    in place of all blocks that were there. -/
def Extended (n : FlowNode) (content content' : List Node) : Prop := ∃ before tag inner kept after,
    (content = before ++ .element tag inner :: after ∨
      content = before ++ after ∧ tag = { name := (bpmn "extensionElements").bare } ∧ inner = [] ∧
        ∀ node ∈ after, node.is (bpmn "extensionElements") = false) ∧
    tag.name.label = bpmn "extensionElements" ∧ (∀ node ∈ before, node.is (bpmn "extensionElements") = false) ∧
    kept = removeNodes (Node.is parametersLabel) false inner ∧ (∀ node ∈ kept, node.is parametersLabel = false) ∧
    content' = before ++ .element tag (kept ++ [parameterBlock (parameterNodes (taskFiles n))]) :: after

/-- A node of the skeleton and what is generated from it. -/
inductive Served (m : Model) : Node → Node → Prop
  | leaf {node : Node} : node.element? = none → Served m node node
  | task {tag tag' : Tag} {content inner content' : List Node} {n : FlowNode} :
      boundNode? m tag.name.label (tag.get? "id") = some n → IsRetagged tag tag' →
      tag'.value? (extension "delegateExpression") = some (delegateOf n) →
      Forall₂ (Served m) content inner → Extended n inner content' →
      Served m (.element tag content) (.element tag' content')
  | flow {tag : Tag} {content inner content' : List Node} :
      tag.name.label = bpmn "sequenceFlow" → Forall₂ (Served m) content inner →
      withoutCondition content' = withoutCondition inner → Served m (.element tag content) (.element tag content')
  | lane {tag tag' : Tag} {content inner : List Node} :
      tag.name.label = bpmn "lane" → tag'.name.label = tag.name.label →
      Forall₂ (Served m) content inner → Served m (.element tag content) (.element tag' inner)
  | other {tag tag' : Tag} {content inner : List Node} :
      boundNode? m tag.name.label (tag.get? "id") = none → IsRetagged tag tag' →
      Forall₂ (Served m) content inner → Served m (.element tag content) (.element tag' inner)

/-! ### The last rounds -/

theorem parameterNodes_unfilled {file : Option String} (h : isFilled file = false) (name : String)
    (parameters : List (String × Option String)) :
    parameterNodes ((name, file) :: parameters) = parameterNodes parameters := by
  have hn : filled? file = none := by
    cases file with
    | none => rfl
    | some s =>
      obtain rfl : s = "" := by simpa [isFilled] using h
      rfl
  exact filterMap_cons_none (congrArg (Option.map _) hn)

variable {n : FlowNode} {m : Model} {c inner i c' : List Node} {tag tag' : Tag}

theorem parameterTail_delegateParameters (h : (n.hasEmail || isFilled n.restFile)) :
    parameterTail (delegateParameters n) = [parameterBlock (parameterNodes (taskFiles n))] := by
  have hcu : parameterNodes (taskFiles n)
      = parameterNodes [("configJson", n.emailFile), ("templateFtl", n.emailTemplate)]
        ++ parameterNodes [("restCallConfig", n.restFile)] :=
    filterMap_append (l := [("configJson", n.emailFile), ("templateFtl", n.emailTemplate)])
  rw [delegateParameters, hcu]
  cases hc : isFilled n.restFile with
  | true =>
    cases he : n.hasEmail with
    | true => simp [parameterTail]
    | false =>
      obtain ⟨hf, ht⟩ := Bool.or_eq_false_iff.mp he
      rw [parameterNodes_unfilled hf, parameterNodes_unfilled ht]
      simp [parameterTail, parameterNodes]
  | false =>
    have he : n.hasEmail := by simpa [hc] using h
    rw [parameterNodes_unfilled hc]
    simp [parameterTail, he, parameterNodes]

theorem extended_delegateRow (h : (n.hasEmail || isFilled n.restFile))
    (c : List Node) : Extended n c (editContent (delegateRow n) c) := by
  obtain ⟨pre, tag, i, post, hne, ho, hr⟩ := delegateRow_split n c
  obtain ⟨-, hl, hb⟩ := splitAtChild?_eq_some hne
  refine ⟨pre, tag, i, _, post, ?_, hl, hb, rfl, not_mem_removeNodes (fun _ => rfl) i false, ?_⟩
  · rcases ho with hs | ⟨hs, rfl, ht, hin⟩
    · exact .inl (splitAtChild?_eq_some hs).1
    · exact .inr ⟨rfl, ht, hin, fun node hn => splitAtChild?_eq_none.mp hs node (by simp [hn])⟩
  · rw [hr, parameterTail_delegateParameters h]

theorem value?_delegateRow (h : (n.hasEmail || isFilled n.restFile)) (tag : Tag) :
    (editTag (delegateRow n) tag).value? (extension "delegateExpression") = some (delegateOf n) := by
  have hs : ∀ delegate ps tag, (editTag (delegateEdits delegate ps) tag).value?
      (extension "delegateExpression") = some delegate := by
    intro delegate ps tag
    exact (value?_put tag _ _ _).trans (if_pos rfl)
  rw [delegateRow, editTag_append, delegateOf]
  split
  · exact hs _ _ _
  · next hc =>
    have he : n.hasEmail := by simpa [hc] using h
    rw [if_pos he]
    exact hs _ [("configJson", n.emailFile), ("templateFtl", n.emailTemplate)] _

theorem served_element (h : Forall₂ (Served m) c i) (tag : Tag) :
    Served m (.element tag c) (.element (editTag ((belows (lastRounds m)).edits tag) tag)
      (editContent ((belows (lastRounds m)).edits tag) i)) := by
  have hq : ∀ edit ∈ (belows (lastRounds m)).edits tag, QuietEdit IsAdded edit :=
    isQuiet_flatMap (fun r hr => (lastRounds_isSound m r hr).below) _ _
  have hla := lastEdits m tag.name.label (tag.get? "id")
  rw [Manual.edits] at hq ⊢
  generalize belows (lastRounds m) tag.name.label (tag.get? "id") = es at hq hla ⊢
  -- all edits of the tag are for elements that carry extension attributes
  have ho : boundNode? m tag.name.label (tag.get? "id") = none →
      (∀ edit ∈ es, edit.isOfTag ∧ carriesExtensions tag.name.label) →
      Served m (.element tag c) (.element (editTag es tag) (editContent es i)) := by
    intro hn hed
    rw [editContent_of_isOfTag fun edit he => (hed edit he).1]
    exact .other hn (isRetagged_editTag hq fun edit he _ => (hed edit he).2) h
  cases hla with
  | task hb =>
    obtain ⟨hl, hok⟩ := of_boundNode?_eq_some hb
    have hc : carriesExtensions tag.name.label := hl ▸ by decide
    exact .task hb (isRetagged_editTag hq fun _ _ _ => hc) (value?_delegateRow hok tag) h (extended_delegateRow hok i)
  | flow _ hl => exact .flow hl h (withoutCondition_conditionEdits _ i)
  | process hn hl =>
    exact ho hn fun edit he => ⟨processManual_isOfTag _ _ edit he, hl ▸ by decide⟩
  | other hn _ _ hed => exact ho hn fun edit he => ⟨(hed edit he).2.isOfTag, (hed edit he).1⟩

mutual

theorem served_revise (m : Model) : ∀ node : Node, Served m node (node.revise (belows (lastRounds m)))
  | .element tag c => served_element (servedAll_revise m c) tag
  | .text _ | .comment _ | .instruction _ _ => .leaf rfl

theorem servedAll_revise (m : Model) : ∀ c : List Node, Forall₂ (Served m) c (reviseAll (belows (lastRounds m)) c)
  | [] => .nil
  | node :: tl => .cons (served_revise m node) (servedAll_revise m tl)

end

/-! ### The first rounds -/

theorem served_retagged (ht : IsRetagged tag tag')
    (hc : ∀ i, Forall₂ (Served m) c' i → Forall₂ (Served m) c i) {out : Node}
    (h : Served m (.element tag' c') out) : Served m (.element tag c) out := by
  cases h with
  | leaf hle => cases hle
  | task hb ht' hdelegate hs he =>
    rw [ht.label, ht.id] at hb
    exact .task hb (ht.trans ht') hdelegate (hc _ hs) he
  | flow hl hs hco =>
    rw [ht.label] at hl
    rw [ht.same (hl ▸ by decide)]
    exact .flow hl (hc _ hs) hco
  | lane hl hl' hs => exact .lane (ht.label ▸ hl) (hl'.trans ht.label) (hc _ hs)
  | other hb ht' hs =>
    rw [ht.label, ht.id] at hb
    exact .other hb (ht.trans ht') (hc _ hs)

theorem forall₂_served (h : Forall₂ (fun node n' => ∀ out, Served m n' out → Served m node out) c c') :
    ∀ {inner : List Node}, Forall₂ (Served m) c' inner → Forall₂ (Served m) c inner := by
  induction h with
  | nil => exact id
  | cons hn _ ih =>
    rintro _ (_ | ⟨hf, ho⟩)
    exact .cons (hn _ hf) (ih ho)

theorem retags_served (m : Model) : Retags fun node n' => ∀ out, Served m n' out → Served m node out where
  leaf _ _ ho := ho
  element ht _ hc _ ho := served_retagged ht (fun _ => forall₂_served hc) ho
  trans h h' out ho := h out (h' out ho)

theorem served_lane (hl : tag.name.label = bpmn "lane") (ht : tag'.name.label = tag.name.label)
    (hc : ∀ i, Forall₂ (Served m) c' i → Forall₂ (Served m) c i) {out : Node}
    (h : Served m (.element tag' c') out) : Served m (.element tag c) out := by
  have hl' := ht.trans hl
  cases h with
  | leaf hle => cases hle
  | task hb => exact absurd (hl'.symm.trans (of_boundNode?_eq_some hb).1) (by decide)
  | flow hf => exact absurd (hl'.symm.trans hf) (by decide)
  | lane _ ht' hs => exact .lane hl (ht'.trans ht) (hc _ hs)
  | other _ ht' hs => exact .lane hl (ht'.label.trans ht) (hc _ hs)

/-- Whatever the first round writes to lanes, their elements are served as before. -/
theorem served_of_planLanes {b b' : Bench} (h : (Bench.round (planLanes m)).run b = (.ok (), b')) :
    ∀ out, Served m b'.document.root.bare.node out → Served m b.document.root.bare.node out := by
  refine round_sets (R := fun node n' => ∀ out, Served m n' out → Served m node out) (C := fun l => l = bpmn "lane")
    (S := NamedSet) (fun _ _ ho => ho) (fun {tag es c c'} hs hc out ho => ?_) (fun _ hs => hs) (planLanes_sets m _) h
  cases es with
  | nil => exact served_retagged ⟨rfl, rfl, fun _ => rfl⟩ (fun _ => forall₂_served hc) ho
  | cons e tl =>
    refine served_lane (hs e (mem_cons_self ..)).1 ?_ (fun _ => forall₂_served hc) ho
    rw [editTag_name]

theorem Served.of_definitions
    (h : Served m (.element tag c) (.element tag' inner)) (hl : tag.name.label = bpmn "definitions") :
    Forall₂ (Served m) c inner := by
  cases h with
  | leaf hle => cases hle
  | task hb => exact absurd (hl.symm.trans (of_boundNode?_eq_some hb).1) (by decide)
  | flow hf => exact absurd (hl.symm.trans hf) (by decide)
  | lane hla => exact absurd (hl.symm.trans hla) (by decide)
  | other _ _ hc => exact hc

/-- Service tasks are served. If the generation succeeds for a process document, then every service task of the skeleton
    for which the model has a file gets the delegate for calls, or else the one for e-mails, whatever its vendor
    attributes say, and in its first extensions one block with the parameters whose files are set, in order. Of all
    other elements but flows the content is kept, as far as there are no service tasks further down. Lanes can get
    any attributes. -/
theorem service_tasks_served {m : Model} {skeleton out : Document} {notices notices' : List Notice}
    (hbound : WellBound [] skeleton.root.node) (hroot : skeleton.root.tag.name.label = bpmn "definitions")
    (h : generate m skeleton notices = (.ok out, notices')) :
    Forall₂ (Served m) (bareAll skeleton.root.content) (bareAll out.root.content) := by
  obtain ⟨middle, hmiddle, hout⟩ := generate_phases (retags_served m) (fun _ _ _ => served_of_planLanes) hbound h
  have hserved := hmiddle _ (served_revise m middle.node)
  have hcontent : bareAll out.root.content = editContent ((belows (lastRounds m)).edits middle.tag)
      (reviseAll (belows (lastRounds m)) middle.content) :=
    (congrArg Element.content hout).trans (editContent_lastTops m _ _)
  rw [Element.node, Element.node, revise_element, ← hcontent] at hserved
  exact hserved.of_definitions ((bare_label _).trans hroot)

theorem service_tasks_served_framed :
    (∃ notices, generate framedModel framedDocument [] = (.ok framedResult, notices)) ∧
    (framedResult.root.descendants (bpmn "serviceTask")).map (fun e => e.tag.value? (extension "delegateExpression"))
      = [some "$\x7bsendEmailDelegate\x7d", some "$\x7brestCallDelegate\x7d"] ∧
    Forall₂ (Served framedModel) (bareAll framedDocument.root.content) (bareAll framedResult.root.content) := by
  obtain ⟨hread, hroot, hgenerate, hdelegates⟩ : (parseChars true framedText).isSome = true ∧
      framedDocument.root.tag.name.label = bpmn "definitions" ∧
      (generate framedModel framedDocument []).1.toOption.isSome = true ∧
      (framedResult.root.descendants (bpmn "serviceTask")).map (fun e => e.tag.value? (extension "delegateExpression"))
        = [some "$\x7bsendEmailDelegate\x7d", some "$\x7brestCallDelegate\x7d"] := by
    decide +kernel
  obtain ⟨notices, hresult⟩ := exists_ok hgenerate
  exact ⟨⟨notices, hresult⟩, hdelegates, service_tasks_served (wellBound_of_parsed hread) hroot hresult⟩

end ProcessForge.Camunda
