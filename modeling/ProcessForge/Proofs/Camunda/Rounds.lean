import ProcessForge.Proofs.Camunda.Plans

/-! The rounds of a generation, what some of them write, and what they keep: documents whose short forms all stand for
    URIs. -/

namespace ProcessForge.Camunda

open Xml Process List Enrichment

theorem spaces_isProper : ∀ s ∈ spaces, s.IsProper := by
  intro s hs
  simp only [spaces, mem_cons, not_mem_nil, or_false] at hs
  rcases hs with rfl | rfl | rfl | rfl | rfl | rfl | rfl <;> exact ⟨by decide, by decide⟩

theorem generate_rounds {m : Model} {t d : Document} {ws ws' : List Notice} (h : generate m t ws = (.ok d, ws')) :
    ∃ b b', (rounds m).run b = (.ok (), b') ∧ b'.document = d ∧
      b.document = Document.ensureNamespaces { t with coined := 0 } spaces := by
  rcases hr : (rounds m).run ⟨Document.ensureNamespaces { t with coined := 0 } spaces, 1, ws⟩ with
    ⟨res, b⟩
  have hg : generate m t ws = (res.map fun _ => b.document, b.notices) := by
    rw [generate]
    simp [hr]
  rw [hg] at h
  cases res with
  | error x => cases h
  | ok u =>
    obtain ⟨hd, -⟩ := Prod.mk.inj h
    exact ⟨_, b, hr, Except.ok.inj hd, rfl⟩

/-- The model that is written to a document: enriched, with its conditions in the dialect of the engine and with
    its decisions by name. -/
def written (config : Configuration) (organization : Option Organization) (m : Model) : Model :=
  nameDecisions (resolveFlows .camunda (enrich "camunda" config organization m))

/-! ### Short forms -/

section

variable {b b' : Bench} {p : Document → Planning Unit}

/-- Writing attributes declares namespaces with URIs only. -/
theorem applyEdits_isNamed {es : List Edit} (h : ∀ e ∈ es, NamedSet e) (o : Scope) (tag : Tag)
    (content : List Node) (ht : ∀ s ∈ tag.declared, s.IsNamed) :
    Gives (applyEdits o tag content es) fun r => (∀ s ∈ r.1.declared, s.IsNamed) ∧ r.2 = content := by
  refine applyEdits_invariant (I := fun tag' ns' => (∀ s ∈ tag'.declared, s.IsNamed) ∧ ns' = content)
    (fun e he tag' ns' hb => ?_) ⟨ht, rfl⟩
  cases h e he with
  | @set l v hu =>
    refine (writeAttribute_declared o tag' l v).bind fun tag'' h'' => Gives.pure ⟨?_, hb.2⟩
    intro s hs
    rcases h'' s hs with ho | hn
    · exact hb.1 s ho
    · exact fun _ he => hu (hn.trans (congrArg some he))

theorem round_isNamed {Q : Element → Edit → Prop} (hQ : ∀ e edit, Q e edit → NamedSet edit)
    (hd : IsNamedDocument b.document) (hp : YieldsAt (fun _ => True) b.document.root.places Q (p b.document))
    (h : (Bench.round p).run b = (.ok (), b')) : IsNamedDocument b'.document := by
  obtain ⟨js, nextId, hj, hdo⟩ := round_ok hp.yields h
  have hs : ∀ job ∈ js, ∀ edit ∈ job.edits, NamedSet edit := by
    intro job hjo edit hed
    obtain ⟨pl, -, -, hedi⟩ := hj job hjo
    exact hQ _ _ (hedi edit hed)
  have hro := Node.Fits.perform (T := fun _ _ tag => ∀ s ∈ tag.declared, s.IsNamed)
    (R := fun _ n => ∀ e ∈ n.elements, ∀ s ∈ e.tag.declared, s.IsNamed) ?_ ?_ ?_
    b.document.root.node [] js (fits_of_forall b.document.root.node js hs hd)
  · rw [hdo]
    exact root_of_perform hro nextId
  · intro n hn e he
    rw [elements_leaf hn] at he
    cases he
  · rintro o e own ⟨he, ho⟩
    refine (applyEdits_isNamed (fun edit hed => ?_) o e.tag [] he).mono fun r hr => hr.1
    exact ho edit (mem_filter.mp hed).1
  · rintro o e own tag ns ⟨-, ho⟩ ht hco
    refine (applyEdits_isNamed (fun edit hed => ?_) o tag ns ht).mono fun r hr => ?_
    · exact ho edit (mem_filter.mp hed).1
    · intro c hc
      rw [elements_element, mem_cons, hr.2] at hc
      rcases hc with rfl | hc
      · exact hr.1
      · obtain ⟨n, hn, hc⟩ := mem_elementsBelow hc
        obtain ⟨-, -, hna⟩ := exists_of_mem_right hco hn
        exact hna c hc

end

/-! ### Flows, the document and its processes -/

abbrev conditionLabel : Label := bpmn "conditionExpression"

def conditionEdits (condition : String) : List Edit := [
  .ensure (.element conditionLabel [(⟨some instanceUri, "type"⟩, .text "bpmn:tFormalExpression")] []),
  .within conditionLabel [.setText condition]]

def documentEdits : List Edit := [.set (.plain "exporter") Defaults.exporter,
  .set (.plain "exporterVersion") Defaults.exporterVersion,
  .set ⟨some modelerUri, "executionPlatform"⟩ Defaults.platform,
  .set ⟨some modelerUri, "executionPlatformVersion"⟩ Defaults.platformVersion,
  .setMissing (.plain "targetNamespace") Defaults.targetNamespace]

def processEdits (e : Element) : Option (List Edit) :=
  if e.tag.is (bpmn "process") then some [.setMissing (.plain "isExecutable") "true",
    .setMissing (extension "historyTimeToLive") Defaults.historyTimeToLive]
  else none

theorem planDefinitions_plans (d : Document) : Plans (planDefinitions d) True
    (⟨[], documentEdits⟩ :: jobsFor processEdits d.root.places) := by
  refine ((Plans.edit ⟨[], [], d.root⟩ documentEdits).bind fun _ => Plans.forM fun pl _ =>
    Plans.edit pl _).congr ⟨fun _ => trivial, fun _ => ⟨by decide, fun _ _ => by decide⟩⟩ ?_
  rw [singleton_append, placesOf]
  congr 1
  induction d.root.places with
  | nil => rfl
  | cons pl places ih =>
    rw [jobsFor, filterMap_cons, ← jobsFor, ← ih]
    cases hp : pl.element.tag.is (bpmn "process") with
    | false => simp [processEdits, hp]
    | true => simp [processEdits, hp]

end ProcessForge.Camunda
