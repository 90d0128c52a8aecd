import ProcessForge.Proofs.Bonita.Mappings
import ProcessForge.Proofs.Bonita.Plans
import ProcessForge.Proofs.Xml.TagLaws

/-! Connectors of a diagram and of its configuration. The connectors of a generated diagram are followed back to the
    skeleton, to fragments and to service tasks. Main statement: of the definitions for service tasks, the
    configuration of the same generation maps the one for calls that post and no other, since e-mails are mapped in an
    earlier version. -/

namespace ProcessForge.Bonita

open Xml List

/-! ### Definitions of connectors -/

def connectorLabel : Label := .plain "connectors"

/-- The definition that a connector refers to, and its version. -/
def definitionOf (tag : Tag) : Option String × Option String := (tag.get? "definitionId", tag.get? "definitionVersion")

/-- Definitions of the connectors among elements. -/
def definitionsIn (elements : List Element) : List (Option String × Option String) :=
  (elements.filter fun e => e.tag.is connectorLabel).map fun e => definitionOf e.tag

/-- Definitions of the connectors in fragments that the nodes of a model bring along. -/
def fragmentDefinitions (m : Model) : List (Option String × Option String) :=
  m.allNodes.flatMap fun n => n.vendorAttributes.flatMap fun a =>
    if Enrichment.isFor "bonita" a.1 then definitionsIn (elementsBelow ((parseFragment? a.2).getD [])) else []

/-- Definitions for calls, one for each method that has one of its own and one for all others. -/
def callDefinitions : List String :=
  ["rest-get", "rest-put", "rest-patch", "rest-delete", "rest-head", "rest-options", "rest-post"]

/-- Definitions with their versions that service tasks refer to. -/
def serviceDefinitions : List (String × String) :=
  ("email", Defaults.emailVersion) :: callDefinitions.map fun id => (id, Defaults.restVersion)

theorem callDefinition_mem (method : String) : callDefinition method ∈ callDefinitions := by
  unfold callDefinition
  split
  all_goals decide

/-! ### The law of connectors -/

/-- If a tag is that of a connector, its definition is of a class. -/
def RefersTo (K : Option String × Option String → Prop) (tag : Tag) : Prop :=
  tag.is connectorLabel = true → K (definitionOf tag)

section

variable {K : Option String × Option String → Prop}

theorem refersTo_isPlainLaw : IsPlainLaw (RefersTo K) := by
  intro tag tag' hs hl hc
  rw [connectorLabel, hs.is] at hc
  rw [definitionOf, hs.get?, hs.get?]
  exact hl hc

theorem refersTo_of_ne {tag : Tag} (h : tag.name.label ≠ connectorLabel) : RefersTo K tag :=
  fun hc => absurd (is_iff.mp hc) h

theorem keeps_draft {d : Draft} (h : d.avoids connectorLabel) : d.Keeps (RefersTo K) :=
  keeps_of_avoids (fun _ => refersTo_of_ne) d h

/-- Attributes that tell the definition of a connector. -/
def definitionLabels : List Label := [.plain "definitionId", .plain "definitionVersion"]

theorem refersTo_of_value? {tag tag' : Tag} (h : RefersTo K tag) (hn : tag'.name = tag.name)
    (hv : ∀ l ∈ definitionLabels, tag'.value? l = tag.value? l) : RefersTo K tag' := by
  intro hc
  rw [Tag.is, hn] at hc
  rw [definitionOf, Tag.get?, Tag.get?, hv _ (by decide), hv _ (by decide)]
  exact h hc

theorem refersTo_written {l : Label} (hl : l ∉ definitionLabels) (v : String) (tag tag' : Tag)
    (hw : tag.Written l v tag') (h : RefersTo K tag) : RefersTo K tag' := by
  refine refersTo_of_value? h hw.name fun l' hl' => ?_
  rw [hw.value?, if_neg (ne_of_mem_of_not_mem hl' hl).symm]

theorem refersTo_drop {s : String} (hs : .plain s ∉ definitionLabels) (tag : Tag) (h : RefersTo K tag) :
    RefersTo K (tag.drop s) := by
  refine refersTo_of_value? h rfl fun l hl => ?_
  have hd : tag.drop s = Tag.only (fun l => l != .plain s) tag := rfl
  rw [hd, value?_only]
  exact bne_iff_ne.mpr (ne_of_mem_of_not_mem hl hs)

/-! ### Drafts -/

theorem avoids_connector_configuration {c : Connector} (h : ∀ p ∈ c.parameters, p.2.avoids connectorLabel) :
    avoidsAll connectorLabel (c.parameters.map fun p => parameterDraft p.1 p.2) := by
  refine avoidsAll_iff.mpr fun draft hd => ?_
  obtain ⟨p, hp, rfl⟩ := mem_map.mp hd
  rw [parameterDraft, piece, Draft.avoids, avoidsAll, h p hp]
  rfl

theorem keeps_connector {c : Connector} (hK : K (some c.definition, some c.version))
    (hp : ∀ p ∈ c.parameters, p.2.avoids connectorLabel) : c.draft.Keeps (RefersTo K) := by
  refine .element (fun tag ht _ => ?_) (forall_mem_singleton.mpr (keeps_draft ?_))
  · have hid : tag.get? "definitionId" = some c.definition := ht.value? _ _ rfl
    have hv : tag.get? "definitionVersion" = some c.version := ht.value? _ _ rfl
    rw [definitionOf, hid, hv]
    exact hK
  · rw [piece, Draft.avoids, avoids_connector_configuration hp]
    rfl

theorem avoids_pattern (objects : OrderedMap BusinessObject) (value : Option String) :
    (pattern objects value).avoids connectorLabel := by
  have hs : ∀ draft ∈ (paths (value.getD "")).filterMap fun path => do
        let root ← rootIdentifier? path
        let object ← objects.value? root
        return pathScript (String.ofList path) root object, draft.avoids connectorLabel := by
    intro draft hd
    obtain ⟨path, -, hf⟩ := mem_filterMap.mp hd
    simp only [Option.bind_eq_bind, Option.bind_eq_some_iff] at hf
    obtain ⟨root, -, object, -, heq⟩ := hf
    cases heq
    rfl
  rw [pattern, expressionPiece, piece, Draft.avoids, avoidsAll_iff.mpr hs]
  rfl

theorem avoids_emailField (objects : OrderedMap BusinessObject) (v : Option String) :
    (emailField objects v).avoids connectorLabel := by
  unfold emailField
  split
  · rfl
  · dsimp only
    split
    · exact avoids_pattern ..
    · rfl

theorem avoids_emailMessage (objects : OrderedMap BusinessObject) (msg : String) :
    (emailMessage objects msg).avoids connectorLabel := by
  unfold emailMessage
  split
  · rfl
  · exact avoids_pattern ..

theorem avoids_emailParameters (objects : OrderedMap BusinessObject) (descriptor : OrderedMap Json)
    (server : MailServer) (msg : String) :
    ∀ p ∈ emailParameters objects descriptor server msg, p.2.avoids connectorLabel := by
  have hf : ∀ v, (emailField objects v).avoids connectorLabel := avoids_emailField objects
  simp only [emailParameters, forall_mem_cons]
  exact ⟨rfl, rfl, rfl, rfl, rfl, rfl, rfl, rfl, rfl, hf _, rfl, hf _, hf _, hf _, hf _, rfl,
    avoids_emailMessage .., rfl, rfl, hf _, rfl, forall_mem_nil _⟩

theorem avoids_callDefaults : ∀ p ∈ callDefaults, p.2.avoids connectorLabel := all_eq_true.mp rfl

theorem avoids_requestParameters (objects : OrderedMap BusinessObject) (request : OrderedMap Json) (url : String) :
    ∀ p ∈ requestParameters objects request url, p.2.avoids connectorLabel := by
  refine forall_mem_append.mpr ⟨?_, ?_⟩
  · simp only [forall_mem_cons]
    exact ⟨rfl, rfl, rfl, forall_mem_nil _⟩
  · split
    · exact forall_mem_nil _
    · exact forall_mem_nil _
    · exact forall_mem_singleton.mpr (avoids_pattern ..)

theorem callConnector?_spec {objects : OrderedMap BusinessObject} {descriptor : OrderedMap Json} {task : Option String}
    {connector : Connector} (h : callConnector? objects descriptor task = .ok (some connector)) :
    connector.definition ∈ callDefinitions ∧ connector.version = Defaults.restVersion ∧
    ∀ p ∈ connector.parameters, p.2.avoids connectorLabel := by
  unfold callConnector? at h
  split at h
  · cases h
  · split at h
    · cases h
    · next request _ _ _ _ =>
      cases hm : methodOf (request.value? "method") with
      | error f =>
        rw [hm] at h
        cases h
      | ok method =>
        rw [hm] at h
        have hc := Option.some.inj (Except.ok.inj h)
        rw [← hc]
        dsimp only
        refine ⟨callDefinition_mem method, rfl, ?_⟩
        exact forall_mem_append.mpr ⟨avoids_requestParameters _ _ _, avoids_callDefaults⟩

mutual

theorem avoids_inputDraft : ∀ input : ContractInput, (inputDraft input).avoids connectorLabel
  | .input name type object inputs => by
    rw [inputDraft, piece, Draft.avoids, avoids_inputDrafts inputs]
    rfl

theorem avoids_inputDrafts : ∀ is : List ContractInput, avoidsAll connectorLabel (inputDrafts is)
  | [] => by
    rfl
  | input :: tl => by
    rw [inputDrafts, avoidsAll, avoids_inputDraft input, avoids_inputDrafts tl]
    rfl

end

theorem avoids_operationDraft (typeId rootClass : String) (op : FieldOperation) :
    (operationDraft typeId rootClass op).avoids connectorLabel := by
  unfold operationDraft
  split
  · rfl
  · rfl

/-! ### Edits of the steps -/

theorem keeps_conditionEdits (objects : OrderedMap BusinessObject) (e : String) :
    ∀ ed ∈ conditionEdits objects e, ed.Keeps (RefersTo K) := by
  have hs : ∀ (l : Label) (v : String), l ∉ definitionLabels → Edit.Keeps (RefersTo K) (.set l v) :=
    fun l v hl => .set (refersTo_written hl v)
  refine forall_mem_append.mpr ⟨?_, fun ed he => ?_⟩
  · simp only [forall_mem_cons]
    exact ⟨hs _ _ (by decide), hs _ _ (by decide), hs _ _ (by decide), hs _ _ (by decide),
      hs _ _ (by decide), hs _ _ (by decide), hs _ _ (by decide), .clear _, forall_mem_nil _⟩
  · obtain ⟨⟨name, object⟩, -, rfl⟩ := mem_map.mp he
    exact .append (keeps_draft rfl)

theorem keeps_contractEdits (ct : Contract) (c typeId : String) :
    ∀ e ∈ contractEdits ct c typeId, e.Keeps (RefersTo K) := by
  refine forall_mem_append.mpr ⟨?_, fun e he => ?_⟩
  · simp only [forall_mem_cons]
    refine ⟨.ensure (keeps_draft rfl), .within _ ?_, .clear _, forall_mem_nil _⟩
    simp only [forall_mem_cons]
    exact ⟨.setMissing (refersTo_written (by decide) _), .clearAll, .append (keeps_draft (avoids_inputDraft _)),
      forall_mem_nil _⟩
  · obtain ⟨operation, ho, rfl⟩ := mem_map.mp he
    obtain ⟨op, -, rfl⟩ := mem_map.mp ho
    exact .place _ (keeps_draft (avoids_operationDraft ..))

end

/-! ### Where connectors come from -/

/-- A connector is one of the skeleton or of a fragment, or it refers to a definition for service tasks. -/
def IsKnown (m : Model) (skeleton : Document) (definition : Option String × Option String) : Prop :=
  definition ∈ definitionsIn skeleton.root.node.elements ∨ definition ∈ fragmentDefinitions m ∨
    ∃ id version, definition = (some id, some version) ∧ (id, version) ∈ serviceDefinitions

theorem forall_definitionsIn {K : Option String × Option String → Prop} {es : List Element} :
    (∀ definition ∈ definitionsIn es, K definition) ↔ ∀ e ∈ es, RefersTo K e.tag := by
  rw [definitionsIn, forall_mem_map]
  refine ⟨fun h e he hc => h e (mem_filter.mpr ⟨he, hc⟩), fun h e he => ?_⟩
  exact h e (mem_filter.mp he).1 (mem_filter.mp he).2

section

variable {m : Model} {s : Document}

theorem fragment_refersTo {n : FlowNode} {a : String × String} {c : List Node} (hn : n ∈ m.allNodes)
    (ha : a ∈ n.vendorAttributes) (hf : Enrichment.isFor "bonita" a.1) (hc : parseFragment? a.2 = some c) :
    ∀ node ∈ c, node.All (RefersTo (IsKnown m s)) := by
  have hk : ∀ definition ∈ definitionsIn (elementsBelow c), IsKnown m s definition := by
    intro definition hd
    refine .inr (.inl (mem_flatMap.mpr ⟨n, hn, mem_flatMap.mpr ⟨a, ha, ?_⟩⟩))
    rwa [if_pos hf, hc]
  intro node hno e he
  exact forall_definitionsIn.mp hk e (elements_subset_elementsBelow hno he)

theorem Writes.keeps {e : Element} {ed : Edit} (h : Writes m e ed) : ed.Keeps (RefersTo (IsKnown m s)) := by
  cases h with
  | actor | data => exact .append (keeps_draft rfl)
  | form | decision => exact .place _ (keeps_draft rfl)
  | link | initiator => exact .set (refersTo_written (by decide) _)
  | timer millis _ he =>
    rcases mem_pair.mp he with rfl | rfl
    · exact .clear _
    · exact .append (keeps_draft rfl)
  | flow objects ex _ he =>
    rcases mem_pair.mp he with rfl | rfl
    · exact .ensure (keeps_draft rfl)
    · exact .within _ (keeps_conditionEdits _ _)
  | contract contract c typeId _ he => exact keeps_contractEdits _ _ _ _ he
  | replace => exact .clear _
  | call hc =>
    obtain ⟨hd, hv, hp⟩ := callConnector?_spec hc
    refine .place _ (keeps_connector (.inr (.inr ⟨_, _, rfl, ?_⟩)) hp)
    rw [hv]
    exact mem_cons_of_mem _ (mem_map_of_mem hd)
  | email objects descriptor task server msg =>
    refine .place _ (keeps_connector (.inr (.inr ⟨_, _, rfl, ?_⟩)) (avoids_emailParameters _ _ _ _))
    exact mem_cons_self ..
  | fragment hn ha hf hco he =>
    rcases mem_append.mp he with he | he
    · obtain ⟨l, -, rfl⟩ := mem_map.mp he
      exact .clear _
    · rw [mem_singleton.mp he]
      refine .graft fun n hno => ?_
      exact fragment_refersTo hn ha hf hco n (graftable_subset _ _ hno)
  | sendTask _ he =>
    rcases mem_cons.mp he with rfl | he
    · exact .set (refersTo_written (by decide) _)
    · rcases mem_pair.mp he with rfl | rfl
      · exact .drop (refersTo_drop (by decide))
      · exact .drop (refersTo_drop (by decide))

theorem Rewrites.keeps {d d' : Document} (h : Rewrites m d d') (hr : d.root.node.All (RefersTo (IsKnown m s))) :
    d'.root.node.All (RefersTo (IsKnown m s)) := by
  obtain ⟨jobs, nextId, hj, rfl⟩ := h
  have hf : d.root.node.Fits (fun _ own => ∀ e ∈ own, e.Keeps (RefersTo (IsKnown m s))) jobs := by
    refine fits_of_places d.root.node [] jobs fun job hjo => ?_
    obtain ⟨p, hp, hpa, he⟩ := hj job hjo
    exact ⟨p, hp, hpa, fun e hed => (he e hed).keeps⟩
  exact root_of_perform (perform_keeps refersTo_isPlainLaw hf []) nextId hr

end

/-- The connectors of a generated diagram are those of its skeleton, those that fragments bring along, and those of
    service tasks. -/
theorem generate_isKnown {c : Content} {s d : Document} {ns ns' : List Notice} (h : generate c s ns = (.ok d, ns')) :
    ∀ definition ∈ definitionsIn d.root.node.elements, IsKnown c.model s definition := by
  have hs : s.root.node.All (RefersTo (IsKnown c.model s)) := forall_definitionsIn.mp fun definition hd => .inl hd
  refine forall_definitionsIn.mpr (generate_keeps (P := fun e => e.node.All (RefersTo (IsKnown c.model s)))
    (fun _ _ hr => hr.keeps) ?_ h)
  exact all_ensureNamespaces refersTo_isPlainLaw spaces hs

/-! ### Connectors and their configuration -/

/-- Of the definitions for service tasks, a configuration knows the one for calls that post. -/
theorem mapped_iff {id version : String} (h : (id, version) ∈ serviceDefinitions) (m : Model)
    (o : Option Organization) : (id, version) ∈ mappingsOf (localConfiguration m o) ↔ id = "rest-post" := by
  have ha : ∀ definition ∈ serviceDefinitions,
      definition ∈ [("email", "1.2.0"), ("rest-post", Defaults.restVersion)] ↔ definition.1 = "rest-post" := by decide
  rw [mappingsOf_localConfiguration]
  exact ha (id, version) h

/-- A configuration maps two definitions. A connector that a generation did not find in the skeleton or in a fragment
    is one for an e-mail or a call, and the configuration knows its definition in its version exactly if it is the
    one for calls that post. -/
theorem generate_connectors_mapped_iff {content : Content} {skeleton document : Document}
    {notices notices' : List Notice} (h : generate content skeleton notices = (.ok document, notices')) (m : Model)
    (organization : Option Organization) :
    mappingsOf (localConfiguration m organization) = [("email", "1.2.0"), ("rest-post", Defaults.restVersion)] ∧
    ∀ definition ∈ definitionsIn document.root.node.elements,
      definition ∈ definitionsIn skeleton.root.node.elements ∨ definition ∈ fragmentDefinitions content.model ∨
      ∃ id version, definition = (some id, some version) ∧ (id, version) ∈ serviceDefinitions ∧
        ((id, version) ∈ mappingsOf (localConfiguration m organization) ↔ id = "rest-post") := by
  refine ⟨mappingsOf_localConfiguration m organization, fun definition hdefinition => ?_⟩
  rcases generate_isKnown h definition hdefinition with hskeleton | hfragment | ⟨id, version, heq, hservice⟩
  · exact .inl hskeleton
  · exact .inr (.inl hfragment)
  · exact .inr (.inr ⟨id, version, heq, hservice, mapped_iff hservice m organization⟩)

def serviceText : List Char := ["<process:MainProcess xmlns:xmi=\"http://www.omg.org/XMI\"",
    " xmlns:process=\"http://www.bonitasoft.org/ns/bpm/process\">",
    "<elements xmi:type=\"process:Pool\" name=\"P\">",
    "<elements xmi:type=\"process:ServiceTask\" name=\"S\"/>", "</elements>",
    "</process:MainProcess>"].flatMap String.toList

def serviceDiagram : Document := (parseChars true serviceText).getD default

/-- A service task that gets something and sends an e-mail. -/
def serviceContent : Content :=
  { model := {}
    config := {
      processes := [{ id := "p", setting := { tasks := [
        { name := "S", restCallRef := some "c.json", emailJsonRef := some "m.json" }] } }]
      mailServer := some {} }
    services := {
      calls := [("c.json", "\x7b\"request\":\x7b\"url\":\"u\",\"method\":\"GET\"\x7d\x7d")]
      emails := [("m.json", "\x7b\x7d")] } }

/-- What is generated from the diagram with the service task. -/
def serviceResult : Document := (generate serviceContent serviceDiagram []).1.toOption.getD default

theorem generate_service : (∃ ns, generate serviceContent serviceDiagram [] = (.ok serviceResult, ns)) ∧
    definitionsIn serviceDiagram.root.node.elements = [] ∧ definitionsIn serviceResult.root.node.elements
      = [(some "rest-get", some "1.5.0"), (some "email", some "1.3.0")] := by
  obtain ⟨hg, hb, ha⟩ : (generate serviceContent serviceDiagram []).1.toOption.isSome ∧
      definitionsIn serviceDiagram.root.node.elements = [] ∧
      definitionsIn serviceResult.root.node.elements
        = [(some "rest-get", some "1.5.0"), (some "email", some "1.3.0")] := by
    decide +kernel
  exact ⟨exists_ok hg, hb, ha⟩

theorem generate_connectors_mapped_iff_service :
    (∃ notices, generate serviceContent serviceDiagram [] = (.ok serviceResult, notices)) ∧
    mappingsOf (localConfiguration serviceContent.model none)
      = [("email", "1.2.0"), ("rest-post", Defaults.restVersion)] ∧
    ∀ definition ∈ definitionsIn serviceResult.root.node.elements,
      definition ∈ definitionsIn serviceDiagram.root.node.elements ∨
      definition ∈ fragmentDefinitions serviceContent.model ∨
      ∃ id version, definition = (some id, some version) ∧ (id, version) ∈ serviceDefinitions ∧
        ((id, version) ∈ mappingsOf (localConfiguration serviceContent.model none) ↔ id = "rest-post") := by
  obtain ⟨⟨notices, hgenerate⟩, -, -⟩ := generate_service
  exact ⟨⟨notices, hgenerate⟩, generate_connectors_mapped_iff hgenerate serviceContent.model none⟩

/-- A call that gets something has a definition that its configuration does not know, and an e-mail has one that its
    configuration knows in another version only. -/
theorem service_connectors_unmapped :
    (∃ notices, generate serviceContent serviceDiagram [] = (.ok serviceResult, notices)) ∧
    (some "rest-get", some "1.5.0") ∈ definitionsIn serviceResult.root.node.elements ∧
    ("rest-get", "1.5.0") ∉ mappingsOf (localConfiguration serviceContent.model none) ∧
    (some "email", some "1.3.0") ∈ definitionsIn serviceResult.root.node.elements ∧
    ("email", "1.3.0") ∉ mappingsOf (localConfiguration serviceContent.model none) := by
  obtain ⟨hgenerate, -, hdefinitions⟩ := generate_service
  rw [hdefinitions, mappingsOf_localConfiguration]
  exact ⟨hgenerate, by decide, by decide, by decide, by decide⟩

end ProcessForge.Bonita
