import ProcessForge.Proofs.Bonita.Plans

/-! What the generation of a diagram leaves alone. Each step writes only to elements that it found by their label
    and kind, and its edits are harmless there. So all that the steps do lets the elements of the skeleton survive,
    as long as no node of the model brings a fragment of markup along. -/

namespace ProcessForge.Bonita

open Xml List

/-! ### Harmless edits -/

section

variable {outer o : Option Tag} {tag : Tag}

theorem isChangeable_actor (h : isElementOf ["process:Lane"] tag) : isChangeable outer tag (.plain "actor") := by
  simp [isChangeable, h]

theorem isChangeable_initiator (h : isActor tag) : isChangeable outer tag (.plain "initiator") := by
  simp [isChangeable, h]

theorem isChangeable_sendTask (h : isElementOf ["process:SendTask"] tag) {l : Label} (hl : l ∈ sendTaskLabels) :
    isChangeable outer tag l := by
  simp [isChangeable, h, hl]

theorem isRemovable_replaced (h : tag.is (.plain "elements")) {child : Label} (hc : child ∈ replacedLabels) :
    isRemovable outer tag child := by
  simp [isRemovable, h, hc]

theorem isRemovable_condition (h : isTimer tag) : isRemovable outer tag (.plain "condition") := by
  simp [isRemovable, h]

theorem isRemovable_contract (h : isTaskContract outer tag) (child : Label) : isRemovable outer tag child := by
  simp [isRemovable, h]

theorem conditionEdits_harmless (h : isFlowCondition o tag) (objects : OrderedMap BusinessObject)
    (e : String) : ∀ edit ∈ conditionEdits objects e, Harmless o tag edit := by
  have hs : ∀ (l : Label) (v : String), l ∈ expressionLabels → Harmless o tag (.set l v) := by
    intro l v hl
    refine .set v (by simp [isChangeable, h, hl]) fun heq => ?_
    rw [heq] at hl
    exact absurd hl (by decide)
  refine forall_mem_append.mpr ⟨?_, fun edit he => ?_⟩
  · simp only [forall_mem_cons]
    exact ⟨hs _ _ (by decide), hs _ _ (by decide), hs _ _ (by decide), hs _ _ (by decide),
      hs _ _ (by decide), hs _ _ (by decide), hs _ _ (by decide), .clear (by simp [isRemovable, h]),
      forall_mem_nil _⟩
  · obtain ⟨⟨name, object⟩, -, rfl⟩ := mem_map.mp he
    exact .append ..

theorem contractEdits_harmless (h : isElementOf userTaskKinds tag) (ct : Contract)
    (c typeId : String) : ∀ edit ∈ contractEdits ct c typeId, Harmless o tag edit := by
  have hco : ∀ child : Tag, child.name.label = .plain "contract" → isTaskContract (some tag) child := by
    intro child hc
    rw [isTaskContract, is_iff.mpr hc, Option.any_some, h]
    rfl
  refine forall_mem_append.mpr ⟨?_, fun edit he => ?_⟩
  · simp only [forall_mem_cons]
    refine ⟨.ensure .., .within fun child hc => ?_, .clear (isRemovable_replaced (isElementOf_label h) (by decide)),
      forall_mem_nil _⟩
    simp only [forall_mem_cons]
    refine ⟨.setKind (by decide) fun hn => ?_, .clearAll (isRemovable_contract (hco child hc)), ?_, forall_mem_nil _⟩
    · simp [isChangeable, hco child hc, hn]
    · cases ct.root
      exact .append ..
  · obtain ⟨operation, ho, rfl⟩ := mem_map.mp he
    obtain ⟨op, -, rfl⟩ := mem_map.mp ho
    exact .place ..

end

/-- No node brings a fragment of markup along. -/
def HasNoFragments (m : Model) : Prop :=
  ∀ n ∈ m.allNodes, ∀ a ∈ n.vendorAttributes, Enrichment.isFor "bonita" a.1 = false

theorem Writes.harmless {m : Model} (hm : HasNoFragments m) {e : Element} {edit : Edit} (h : Writes m e edit)
    (o : Option Tag) : Harmless o e.tag edit := by
  have hp : ∀ s : String, Label.plain s ≠ kindLabel := fun s heq => by cases congrArg Label.uri heq
  cases h with
  | actor | data => exact .append ..
  | form | call | email | decision => exact .place ..
  | link id hk => exact .set _ (isChangeable_actor hk) fun heq => absurd heq (hp _)
  | initiator hac => exact .set _ (isChangeable_initiator hac) fun heq => absurd heq (hp _)
  | timer millis ht he =>
    rcases mem_pair.mp he with rfl | rfl
    · exact .clear (isRemovable_condition ht)
    · exact .append ..
  | flow objects ex hfl he =>
    rcases mem_pair.mp he with rfl | rfl
    · exact .ensure ..
    · refine .within fun child hc => conditionEdits_harmless ?_ _ _
      rw [isFlowCondition, is_iff.mpr hc, Option.any_some, hfl]
      rfl
  | contract contract c typeId hk he => exact contractEdits_harmless hk _ _ _ _ he
  | replace hla hl => exact .clear (isRemovable_replaced hla hl)
  | fragment hn ha hf =>
    rw [hm _ hn _ ha] at hf
    cases hf
  | sendTask hs he =>
    rcases mem_cons.mp he with rfl | he
    · exact .set _ (isChangeable_sendTask hs (by decide)) fun _ => by decide
    · rcases mem_pair.mp he with rfl | rfl
      · exact .drop (isChangeable_sendTask hs (by decide))
      · exact .drop (isChangeable_sendTask hs (by decide))

/-! ### Whole generations -/

theorem Rewrites.survives {m : Model} (hm : HasNoFragments m) {d d' : Document} (h : Rewrites m d d') :
    Survives (none, d.root) d'.root := by
  obtain ⟨js, nextId, hj, rfl⟩ := h
  refine perform_root_survives (fun job hjo => ?_) nextId none
  obtain ⟨p, hp, hpa, he⟩ := hj job hjo
  exact ⟨p, hp, hpa, fun e hed => (he e hed).harmless hm⟩

theorem spaces_isProper : ∀ s ∈ spaces, s.IsProper := by
  simp only [spaces, forall_mem_cons]
  exact ⟨⟨by decide, by decide⟩, ⟨by decide, by decide⟩, ⟨by decide, by decide⟩, ⟨by decide, by decide⟩,
    forall_mem_nil _⟩

theorem ofSkeleton_survives {s : Document} (hb : WellBound [] s.root.node) (ns : List Notice) :
    Survives (none, s.root) (Desk.ofSkeleton s ns).root := by
  have hn := nodeSurvives_of_rebound _ (ensureNamespaces_rebound (d := { s with coined := 0 }) hb spaces_isProper)
  generalize hl : Element.node _ = node at hn
  generalize hr : Element.node _ = n' at hn
  cases hn with
  | leaf hle =>
    rw [← hl] at hle
    cases hle
  | element hs =>
    have hro := hs none
    rwa [← node_injective hl, ← node_injective hr] at hro

/-- The frame of the generation. If no node of the model brings a fragment of markup along and the generation
    succeeds, every element of the skeleton survives in its parent, in its order, with its attributes and its leading
    text, except for what steps replace. -/
theorem generate_keeps_elements {content : Content} {skeleton out : Document} {notices notices' : List Notice}
    (hm : HasNoFragments content.model) (hbound : WellBound [] skeleton.root.node)
    (h : generate content skeleton notices = (.ok out, notices')) : Survives (none, skeleton.root) out.root :=
  generate_keeps (P := Survives (none, skeleton.root))
    (fun _ _ hrewrites hsurvives => hsurvives.trans _ .none (hrewrites.survives hm))
    (ofSkeleton_survives hbound notices) h

/-- A lane with a timer, a send task and text, and a flow with a condition. -/
def framedText : List Char := ["<process:MainProcess xmlns:xmi=\"http://www.omg.org/XMI\"",
    " xmlns:process=\"http://www.bonitasoft.org/ns/bpm/process\">",
    "<elements xmi:type=\"process:Pool\" name=\"P\">", "a", "<elements xmi:type=\"process:Lane\" name=\"L\">",
    "<elements xmi:type=\"process:StartTimerEvent\" name=\"T\">", "<condition content=\"x\"/>",
    "<outgoing/>", "</elements>", "<elements xmi:type=\"process:SendTask\" name=\"S\" priority=\"1\"/>", "</elements>",
    "<connections xmi:type=\"process:SequenceFlow\" name=\"F\">",
    "<condition content=\"y\">", "<referencedElements/>", "</condition>", "</connections>", "</elements>",
    "</process:MainProcess>"].flatMap String.toList

def framedDiagram : Document := (parseChars true framedText).getD default

def framedContent : Content :=
  { model := { processes := [{
      id := "p"
      nodes := [("t", { id := "t", kind := .startEvent, name := some "T", timer := some "PT1S" })]
      flows := [("f", { id := "f", name := some "F", resolved := some "z" })] }] } }

/-- What is generated from the diagram with the timer. -/
def framedResult : Document := (generate framedContent framedDiagram []).1.toOption.getD default

theorem generate_keeps_elements_timer :
    (∃ notices, generate framedContent framedDiagram [] = (.ok framedResult, notices)) ∧
    (framedDiagram.root.descendants (.plain "condition")).map (fun e => e.tag.get? "content") = [some "x", some "y"] ∧
    (framedResult.root.descendants (.plain "condition")).map (fun e => e.tag.get? "content")
      = [some "1000L", some "z"] ∧
    Survives (none, framedDiagram.root) framedResult.root := by
  obtain ⟨hread, hm, hgenerate, hbefore, hafter⟩ : (parseChars true framedText).isSome = true ∧
      (∀ n ∈ framedContent.model.allNodes, ∀ a ∈ n.vendorAttributes, Enrichment.isFor "bonita" a.1 = false) ∧
      (generate framedContent framedDiagram []).1.toOption.isSome = true ∧
      (framedDiagram.root.descendants (.plain "condition")).map (fun e => e.tag.get? "content") = [some "x", some "y"] ∧
      (framedResult.root.descendants (.plain "condition")).map (fun e => e.tag.get? "content")
        = [some "1000L", some "z"] := by
    decide +kernel
  obtain ⟨notices, hrun⟩ := exists_ok hgenerate
  exact ⟨⟨notices, hrun⟩, hbefore, hafter, generate_keeps_elements hm (wellBound_of_parsed hread) hrun⟩

end ProcessForge.Bonita
