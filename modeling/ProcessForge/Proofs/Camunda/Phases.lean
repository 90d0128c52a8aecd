import ProcessForge.Proofs.Camunda.Frame
import ProcessForge.Proofs.Process.View

/-! A generation in two phases. The first three rounds write attributes in namespaces to lanes and nodes, whatever the
    short forms of the document stand for. The last four rounds follow manuals: service tasks get delegates, flows
    get conditions, processes and the root get their attributes. -/

namespace ProcessForge.Camunda

open Xml Process List Enrichment

/-! ### Attributes -/

/-- A tag keeps its label and its id, and all of its attributes unless it carries extension attributes. -/
structure IsRetagged (tag tag' : Tag) : Prop where
  label : tag'.name.label = tag.name.label
  id : tag'.get? "id" = tag.get? "id"
  same : carriesExtensions tag.name.label = false → tag' = tag

theorem IsRetagged.trans {tag₁ tag₂ tag₃ : Tag} (h : IsRetagged tag₁ tag₂) (h' : IsRetagged tag₂ tag₃) :
    IsRetagged tag₁ tag₃ where
  label := h'.label.trans h.label
  id := h'.id.trans h.id
  same hn := (h'.same (h.label ▸ hn)).trans (h.same hn)

variable {es : List Edit} {e : Edit} {l : Label} {m : Model}

theorem isRetagged_editTag {tag : Tag} (h : ∀ e ∈ es, QuietEdit IsAdded e)
    (hc : ∀ e ∈ es, e.isOfTag → carriesExtensions tag.name.label) :
    IsRetagged tag (editTag es tag) where
  label := by rw [editTag_name]
  id := editTag_id h tag
  same hn := by
    refine editTag_of_not_isOfTag (fun e he => ?_) tag
    by_contra ho
    simp [hn] at hc
    exact ho (hc e he)

theorem QualifiedSet.quiet (h : QualifiedSet edit) : QuietEdit IsAdded edit := by
  cases h with
  | set s v _ => exact .set v nofun

theorem plainAttributes_put (h : l.uri.isSome) (v : String) (tag : Tag) :
    plainAttributes (tag.put l v) = plainAttributes tag := by
  have hb : l.bare.space ≠ none := by simpa [Label.bare, Option.isSome_iff_ne_none] using h
  simp only [plainAttributes, Tag.put]
  induction tag.attributes with
  | nil => simp [putAttribute, hb]
  | cons a tl ih =>
    rw [putAttribute]
    split
    · next heq =>
      -- an attribute that is replaced is in a namespace, too
      have hs : a.name.space ≠ none := by
        have hu : a.name.uri? = l.uri := congrArg Label.uri ((beq_iff_eq.mp heq).trans (label_bare l))
        rw [← hu, Name.uri?, Option.isSome_map] at h
        exact Option.isSome_iff_ne_none.mp h
      simp [hb, hs]
    · rw [filterMap_cons, filterMap_cons, ih]

theorem plainAttributes_editTag (hq : ∀ e ∈ es, QuietEdit IsAdded e) (h : ∀ e ∈ es, ∀ l ∈ e.written?, l.uri.isSome) :
    ∀ tag : Tag, plainAttributes (editTag es tag) = plainAttributes tag := by
  induction es with
  | nil => exact fun _ => rfl
  | cons e tl ih =>
    obtain ⟨he, hr⟩ := forall_mem_cons.mp h
    obtain ⟨hf, ho⟩ := forall_mem_cons.mp hq
    intro tag
    refine (ih ho hr (e.onTag tag)).trans ?_
    cases hf with
    | set v _ => exact plainAttributes_put (he _ rfl) v tag
    | setMissing v _ =>
      rw [Edit.onTag]
      split
      · rfl
      · exact plainAttributes_put (he _ rfl) v tag
    | setText | clear | append | ensure | ensureFirst | within => rfl

/-! ### The first rounds -/

/-- A relation of trees that holds wherever tags keep labels, ids and attributes in no namespace, and all tags without
    extension attributes stay as they are. -/
structure Retags (R : Node → Node → Prop) : Prop where
  leaf : ∀ {node : Node}, node.element? = none → R node node
  element : ∀ {tag tag' : Tag} {content content' : List Node}, IsRetagged tag tag' →
    plainAttributes tag' = plainAttributes tag → Forall₂ R content content' →
    R (.element tag content) (.element tag' content')
  trans : ∀ {node node' node'' : Node}, R node node' → R node' node'' → R node node''

theorem NamedSet.isOfTag (h : NamedSet e) : e.isOfTag := by
  cases h
  rfl

/-- A round that writes attributes keeps a relation of trees that allows for them. -/
theorem round_sets {R : Node → Node → Prop} {C : Label → Prop} {S : Edit → Prop} {p : Document → Planning Unit}
    {b b' : Bench} (hle : ∀ {node : Node}, node.element? = none → R node node)
    (he : ∀ {tag : Tag} {es : List Edit} {c c' : List Node}, (∀ edit ∈ es, C tag.name.label ∧ S edit) →
      Forall₂ R c c' → R (.element tag c) (.element (editTag es tag) c')) (hS : ∀ edit, S edit → NamedSet edit)
    (hp : YieldsAt (fun _ => True) b.document.root.places (fun e edit => C e.tag.name.label ∧ S edit) (p b.document))
    (h : (Bench.round p).run b = (.ok (), b')) : R b.document.root.bare.node b'.document.root.bare.node := by
  obtain ⟨js, nextId, hj, hd⟩ := round_ok hp.yields h
  have hf := fits_of_places (Q := fun e edit => C e.tag.name.label ∧ S edit) b.document.root.node [] js hj
  rw [hd]
  refine root_of_perform (P := fun n => R b.document.root.node.bare n.bare)
    (Node.Fits.perform (R := fun n n' => R n.bare n'.bare) (T := fun e own tag =>
      tag.bare = editTag (own.filter Edit.isOfTag) e.tag.bare) (fun n hn => ?_) ?_ ?_ _ [] js hf) nextId
  · rw [bare_leaf hn]
    exact hle hn
  · intro o e own ho
    refine (applyEdits_bare (fun edit hm => ?_) o e.tag []).mono fun r hr => hr.1
    cases hS edit (ho edit (mem_filter.mp hm).1).2
    exact set_apply_bare _ _
  · intro o e own tag ns ho ht hc
    rw [filter_eq_nil_iff.mpr fun edit hm => by simp [(hS edit (ho edit hm).2).isOfTag], Element.node]
    refine Gives.pure ?_
    rw [bare_element, bare_element, bareAll_eq_map, bareAll_eq_map, ht]
    refine he (fun edit hm => ?_) (forall₂_map_left_iff.mpr (forall₂_map_right_iff.mpr hc))
    rw [bare_label]
    exact ho edit (mem_filter.mp hm).1

theorem round_retags {R : Node → Node → Prop} (hR : Retags R) {p : Document → Planning Unit} {b b' : Bench}
    (hp : Qualifies b.document (p b.document)) (h : (Bench.round p).run b = (.ok (), b')) :
    R b.document.root.bare.node b'.document.root.bare.node := by
  refine round_sets (C := fun l => carriesExtensions l) (S := QualifiedSet) hR.leaf (fun hs hc => ?_)
    (fun _ => QualifiedSet.named) hp h
  have hq : ∀ edit ∈ _, QuietEdit IsAdded edit := fun edit he => (hs edit he).2.quiet
  refine hR.element (isRetagged_editTag hq fun edit he _ => (hs edit he).1)
    (plainAttributes_editTag hq (fun edit he => ?_) _) hc
  cases (hs edit he).2
  exact fun l hl => Option.mem_some.mp hl ▸ rfl

/-! ### The last rounds -/

/-- What the model has for a service task, if it sends e-mails or makes calls. -/
def boundNode? (m : Model) (label : Label) (id : Option String) : Option FlowNode :=
  if label = bpmn "serviceTask" then
    (id.bind m.node?).filter fun n => n.hasEmail || isFilled n.restFile
  else none

theorem of_boundNode?_eq_some {id : Option String} {n : FlowNode} (h : boundNode? m l id = some n) :
    l = bpmn "serviceTask" ∧ (n.hasEmail || isFilled n.restFile) := by
  rw [boundNode?] at h
  split at h
  · next hl => exact ⟨hl, (Option.filter_eq_some_iff.mp h).2⟩
  · cases h

/-- The condition that is written to the flow with an id. -/
def writtenCondition? (m : Model) (id : String) : Option String :=
  ((flowsById m).value? id).bind fun flow =>
    if Text.isBlankText (flow.resolved.getD "") then none else some (flow.resolved.getD "")

/-- The rounds of the delegates and all later ones. -/
def lastRounds (m : Model) : List Round := [delegateRound m, decisionRound m, flowRound m, definitionRound]

theorem lastRounds_isSound (m : Model) : ∀ r ∈ lastRounds m, r.IsSound IsAdded fun _ => True := by
  simp only [lastRounds, forall_mem_cons]
  exact ⟨delegateRound_isSound m, decisionRound_isSound m, flowRound_isSound m, definitionRound_isSound,
    forall_mem_nil _⟩

theorem delegates_below (m : Model) (l : Label) (id : Option String) :
    (delegateRound m).below l id = ((boundNode? m l id).map delegateRow).getD [] := by
  change manualFor "serviceTask" m.node? delegateRows l id = _
  rw [manualFor, rowsFor, boundNode?]
  split
  · cases id.bind m.node? with
    | none => rfl
    | some n =>
      rw [Option.map_some, delegateRows, Option.filter_some]
      split
      · simp
      · rfl
  · rfl

theorem belows_lastRounds (m : Model) (l : Label) (id : Option String) : belows (lastRounds m) l id
    = (delegateRound m).below l id ++ (decisionRound m).below l id ++ (flowRound m).below l id
      ++ processManual l id := by
  simp [belows, lastRounds, definitionRound]

theorem editContent_lastTops (m : Model) (tag : Tag) (content : List Node) :
    editContent ((tops (lastRounds m)).edits tag) content =
      editContent ((belows (lastRounds m)).edits tag) content := by
  have hq : ∀ content, editContent documentEdits content = content := editContent_of_isOfTag (by decide)
  rw [Manual.edits, Manual.edits, belows_lastRounds]
  simp only [tops, lastRounds, flatMap_cons, flatMap_nil, editContent_append, editContent_nil, definitionRound, hq]
  rfl

theorem flows_below (m : Model) (id : Option String) :
    (flowRound m).below (bpmn "sequenceFlow") id = ((id.bind (writtenCondition? m)).map conditionEdits).getD [] := by
  change manualFor "sequenceFlow" (flowsById m).value? flowRows _ id = _
  rw [manualFor, rowsFor, if_pos rfl]
  cases id with
  | none => rfl
  | some id =>
    rw [Option.bind_some, Option.bind_some, writtenCondition?]
    cases (flowsById m).value? id with
    | none => rfl
    | some flow =>
      rw [Option.map_some, flowRows, Option.bind_some]
      split
      · rfl
      · exact flatten_singleton

/-- What an element below the root gets from the last rounds. -/
inductive LastEdits (m : Model) (label : Label) (id : Option String) : List Edit → Prop
  | task {n : FlowNode} : boundNode? m label id = some n → LastEdits m label id (delegateRow n)
  | flow {condition : String} : boundNode? m label id = none → label = bpmn "sequenceFlow" →
      id.bind (writtenCondition? m) = some condition → LastEdits m label id (conditionEdits condition)
  | process : boundNode? m label id = none → label = bpmn "process" → LastEdits m label id (processManual label id)
  | other {edits : List Edit} : boundNode? m label id = none → label ≠ bpmn "process" →
      (label = bpmn "sequenceFlow" → id.bind (writtenCondition? m) = none) →
      (∀ edit ∈ edits, carriesExtensions label = true ∧ SetsExtension edit) → LastEdits m label id edits

theorem lastEdits (m : Model) (l : Label) (id : Option String) : LastEdits m l id (belows (lastRounds m) l id) := by
  have hd : l ≠ bpmn "businessRuleTask" → (decisionRound m).below l id = [] := fun hn => manualFor_of_ne hn id
  have hp : l ≠ bpmn "process" → processManual l id = [] := fun hn => if_neg hn
  have hfl : l ≠ bpmn "sequenceFlow" → (flowRound m).below l id = [] := fun hn => manualFor_of_ne hn id
  rw [belows_lastRounds, delegates_below]
  cases hb : boundNode? m l id with
  | some n =>
    obtain ⟨rfl, -⟩ := of_boundNode?_eq_some hb
    rw [hd (by decide), hfl (by decide), hp (by decide), append_nil, append_nil, append_nil]
    exact .task hb
  | none =>
    by_cases hf : l = bpmn "sequenceFlow"
    · subst hf
      rw [hd (by decide), hp (by decide), flows_below]
      cases hw : id.bind (writtenCondition? m) with
      | none => exact .other hb (by decide) (fun _ => hw) (forall_mem_nil _)
      | some cnd => exact .flow hb rfl hw
    · rw [hfl hf, append_nil]
      by_cases hl : l = bpmn "process"
      · rw [hd (by rw [hl]; decide)]
        exact .process hb hl
      · rw [hp hl, append_nil]
        exact .other hb hl (absurd · hf) ((decisionRound_writes m).2 l id)

/-! ### Both phases -/

/-- A generation that succeeds writes attributes, and then it revises the tree. -/
theorem generate_phases {skeleton out : Document} {notices notices' : List Notice} {R : Node → Node → Prop}
    (hR : Retags R) (hl : ∀ b b', IsNamedDocument b.document → (Bench.round (planLanes m)).run b = (.ok (), b') →
      R b.document.root.bare.node b'.document.root.bare.node) (hbo : WellBound [] skeleton.root.node)
    (h : generate m skeleton notices = (.ok out, notices')) :
    ∃ middle : Element, R skeleton.root.bare.node middle.node ∧
      out.root.bare = middle.revise (tops (lastRounds m)) (belows (lastRounds m)) := by
  obtain ⟨b, b', hr, rfl, hb⟩ := generate_rounds h
  have hre : Rebound skeleton.root.node b.document.root.node := by
    rw [hb]
    exact ensureNamespaces_rebound (d := { skeleton with coined := 0 }) hbo spaces_isProper
  have hs : skeleton.root.bare.node = b.document.root.bare.node := by
    rw [← bare_node, ← bare_node, hre.bare]
  have hn : IsNamedDocument b.document := hre.isNamed
  obtain ⟨⟨⟩, b₁, h₁, hr⟩ := run_bind_ok hr
  obtain ⟨⟨⟩, b₂, h₂, hr⟩ := run_bind_ok hr
  obtain ⟨⟨⟩, b₃, h₃, hr⟩ := run_bind_ok hr
  have hn₁ := round_isNamed (fun _ _ hs => hs.2) hn (planLanes_sets m _) h₁
  have hn₂ := round_isNamed (fun _ _ hs => hs.2.named) hn₁ (planUserTasks_qualifies m _) h₂
  have hr' : ((lastRounds m).forM fun r => Bench.round r.plan).run b₃ = (.ok (), b') := by
    simp only [lastRounds, forM_eq_forM, forM_cons, forM_nil, bind_pure_unit]
    exact hr
  obtain ⟨-, hba, -⟩ := rounds_run (fun _ _ _ _ _ => trivial) (lastRounds_isSound m) trivial hr'
  refine ⟨b₃.document.root.bare, ?_, congrArg Document.root hba⟩
  rw [hs]
  exact hR.trans (hl b b₁ hn h₁) (hR.trans (round_retags hR (planUserTasks_qualifies m _) h₂)
    (round_retags hR (planVendorAttributes_qualifies m hn₂) h₃))

end ProcessForge.Camunda
