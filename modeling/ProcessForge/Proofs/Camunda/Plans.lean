import ProcessForge.Proofs.Enrichment
import ProcessForge.Proofs.Planning
import ProcessForge.Proofs.Text.Trim
import ProcessForge.Proofs.Xml.Rebind

/-! What the first three rounds plan. They write attributes in namespaces. Attributes whose names come from a
    configuration get the namespace of their short form, which is a namespace indeed as long as no short form of
    the document stands for an empty URI. -/

namespace ProcessForge.Camunda

open Xml Process List String Enrichment

/-! ### Attributes in namespaces -/

/-- Whether elements with a label carry extension attributes: lanes, processes and nodes. -/
def carriesExtensions (label : Label) : Bool :=
  label == bpmn "lane" || label == bpmn "process" || NodeKind.all.any fun kind => label == bpmn kind.tagName

theorem carriesExtensions_tagName (k : NodeKind) : carriesExtensions (bpmn k.tagName) := by
  cases k <;> decide

/-- An edit that writes an attribute in a namespace. -/
inductive QualifiedSet : Edit → Prop
  | set {uri : String} (stem value : String) : uri ≠ "" → QualifiedSet (.set ⟨some uri, stem⟩ value)

/-- An edit that writes an attribute, and not in an empty namespace. -/
inductive NamedSet : Edit → Prop
  | set {label : Label} (value : String) : label.uri ≠ some "" → NamedSet (.set label value)

theorem QualifiedSet.named {edit : Edit} (h : QualifiedSet edit) : NamedSet edit := by
  cases h with
  | set s v hu => exact .set v fun heq => hu (Option.some.inj heq)

theorem not_mem_of_isNcName {s : String} (h : isNcName s) : '\x7d' ∉ s.toList := by
  intro hm
  unfold isNcName at h
  split at h
  · cases h
  · next c tl hs =>
    rw [Bool.and_eq_true, all_eq_true] at h
    rw [hs] at hm
    rcases mem_cons.mp hm with rfl | hm
    · exact absurd h.1 (by decide)
    · exact absurd (h.2 _ hm) (by decide)

variable {stem s : String} {d : Document} {place : Place}

/-- A namespace in braces is read as a namespace, unless it is empty. -/
theorem ofBraced?_uri {uri : String} {l : Label} (hur : uri ≠ "")
    (h : Label.ofBraced? (Label.braced ⟨some uri, s⟩) = some l) : ∃ f, l.uri = some f ∧ f ≠ "" := by
  have hn : (Label.braced ⟨some uri, s⟩).toList = '\x7b' :: (uri.toList ++ '\x7d' :: s.toList) := by
    simp [Label.braced]
  unfold Label.ofBraced? at h
  rw [hn] at h
  obtain ⟨hl, ha⟩ := Option.filter_eq_some_iff.mp h
  obtain ⟨⟨f, post⟩, hs, rfl⟩ := Option.map_eq_some_iff.mp hl
  have hp := Text.eq_append_of_splitFirst? hs
  cases f with
  | cons c tl => exact ⟨ofList (c :: tl), rfl, by simp⟩
  | nil =>
    -- the URI would begin with the closing brace, and the rest would be no name
    exfalso
    simp only [Bool.and_eq_true] at ha
    have haf := not_mem_of_isNcName ha.2
    cases hu : uri.toList with
    | nil => exact hur (toList_eq_nil_iff.mp hu)
    | cons c tl =>
      rw [hu] at hp
      obtain ⟨-, hr⟩ := cons.inj hp
      rw [← hr] at haf
      simp at haf

theorem ofBraced?_named {name : String} {l : Label} (h : Label.ofBraced? name = some l) : l.uri ≠ some "" := by
  unfold Label.ofBraced? at h
  obtain ⟨hl, -⟩ := Option.filter_eq_some_iff.mp h
  split at hl
  · obtain ⟨⟨f, post⟩, -, rfl⟩ := Option.map_eq_some_iff.mp hl
    cases f <;> simp
  · cases hl
    exact nofun

/-! ### Attributes with short forms -/

/-- All short forms that the elements of a document declare stand for URIs. -/
def IsNamedDocument (d : Document) : Prop := ∀ e ∈ d.root.node.elements, ∀ space ∈ e.tag.declared, space.IsNamed

theorem bound?_isNamed {sc : Scope} (h : ∀ l ∈ sc, ∀ s ∈ l.declared, s.IsNamed)
    {short : String} (hx : short ≠ "xml") {s : Namespace} (hb : sc.bound? (some short) = some s) : s.uri ≠ "" := by
  rw [Scope.bound?, if_neg (by simpa using hx)] at hb
  obtain ⟨l, hl, hf⟩ := exists_of_findSome?_eq_some hb
  have hs : s.short = some short := by simpa using find?_some hf
  exact h l hl s (mem_of_find?_eq_some hf) (by rw [hs]; rfl)

theorem scope_isNamed (hd : IsNamedDocument d) (hplace : place ∈ d.root.places) :
    ∀ l ∈ place.element.tag.layer :: place.outer, ∀ s ∈ l.declared, s.IsNamed := by
  intro l hl
  obtain ⟨e, he, rfl⟩ := (scope_of_mem_places hplace).1 l hl
  exact hd e he

/-- A plan writes attributes in namespaces only, to elements that carry extension attributes. -/
abbrev Qualifies {α : Type} (d : Document) (x : Planning α) : Prop := YieldsAt (fun _ => True) d.root.places
    (fun e edit => carriesExtensions e.tag.name.label = true ∧ QualifiedSet edit) x

/-- A plan writes attributes to elements with a label, whatever the namespaces of these attributes. -/
abbrev Sets {α : Type} (label : Label) (d : Document) (x : Planning α) : Prop := YieldsAt (fun _ => True) d.root.places
    (fun e edit => e.tag.name.label = label ∧ NamedSet edit) x

section

variable {d : Document} {place : Place} (hplace : place ∈ d.root.places)
  (hcarries : carriesExtensions place.element.tag.name.label = true)

include hplace hcarries

theorem edit_qualifies {es : List Edit} (h : ∀ e ∈ es, QualifiedSet e) : Qualifies d (Planning.edit place es) :=
  .edit trivial ⟨place, hplace, rfl, fun e he => ⟨hcarries, h e he⟩⟩

theorem setBraced_qualifies {uri : String} (hu : uri ≠ "") (s v : String) :
    Qualifies d (setBraced place (Label.braced ⟨some uri, s⟩) v) := by
  unfold setBraced
  split
  · next l hl =>
    obtain ⟨f, hf, hn⟩ := ofBraced?_uri hu hl
    obtain ⟨_, s⟩ := l
    cases hf
    exact edit_qualifies hplace hcarries (forall_mem_singleton.mpr (.set s v hn))
  · exact .throw trivial

/-- An attribute of the engine is written in the namespace of its short form, or it is left out. -/
theorem setPrefixed_qualifies (hd : IsNamedDocument d) {name : String}
    (hn : isFor "camunda" name) (v : String) : Qualifies d (setPrefixed place name v) := by
  obtain ⟨stem, hst⟩ := Option.isSome_iff_exists.mp hn
  have hc : name.toList = "camunda".toList ++ ':' :: stem := by
    rw [Text.eq_append_of_dropPrefix? hst]
    rfl
  unfold setPrefixed
  rw [hc, Text.splitFirst?_append (by decide)]
  simp only [ofList_toList]
  split
  · exact Adds.bind (.note _) fun _ => .pure _
  · next space hs =>
    rw [Place.space?, if_neg (by decide)] at hs
    have hu := bound?_isNamed (scope_isNamed hd hplace) (by decide) hs
    exact (setBraced_qualifies hplace hcarries hu _ v).bind fun _ => .pure _

end

/-! ### The rounds -/

theorem mem_matched {α : Type} {find : String → Option α}
    {found : α} : (place, found) ∈ matched d s find ↔ place ∈ d.root.places ∧
    place.element.tag.name.label = bpmn s ∧ (place.element.tag.get? "id").bind find = some found := by
  rw [matched, mem_filterMap]
  constructor
  · rintro ⟨p', hp', hf⟩
    obtain ⟨found', hf', heq⟩ := Option.map_eq_some_iff.mp hf
    cases heq
    obtain ⟨hm, his⟩ := mem_filter.mp hp'
    exact ⟨hm, is_iff.mp his, hf'⟩
  · rintro ⟨hm, hl, hf⟩
    exact ⟨place, mem_filter.mpr ⟨hm, is_iff.mpr hl⟩, by rw [hf, Option.map_some]⟩

theorem setFilled_qualified (s : String) (v : Option String) : ∀ edit ∈ setFilled s v, QualifiedSet edit := by
  intro edit he
  unfold setFilled at he
  split at he
  · rw [mem_singleton.mp he]
    exact .set s _ (by decide)
  · cases he

theorem planLanes_qualifies {m : Model} (hm : LanesHave (HasAccepted (isFor "camunda")) m)
    (hd : IsNamedDocument d) : Qualifies d (planLanes m d) := by
  refine Adds.forM ?_
  rintro ⟨place, l⟩ hma
  obtain ⟨hplace, hl, hf⟩ := mem_matched.mp hma
  have hcarries : carriesExtensions place.element.tag.name.label := hl ▸ by decide
  obtain ⟨id, -, hla⟩ := Option.bind_eq_some_iff.mp hf
  obtain ⟨p, hp, hme⟩ := mem_flatMap.mp (mem_of_find?_eq_some hla)
  refine Adds.bind (Adds.forM ?_) fun _ => edit_qualifies hplace hcarries (setFilled_qualified _ _)
  rintro ⟨name, v⟩ ha
  exact (setPrefixed_qualifies hplace hcarries hd (hm p hp l hme _ ha) v).discard

/-- Lanes get attributes, whatever their names are. -/
theorem planLanes_sets (m : Model) (d : Document) : Sets (bpmn "lane") d (planLanes m d) := by
  refine Adds.forM ?_
  rintro ⟨place, l⟩ hma
  obtain ⟨hplace, hl, -⟩ := mem_matched.mp hma
  have hed : ∀ es : List Edit, (∀ e ∈ es, NamedSet e) → Sets (bpmn "lane") d (Planning.edit place es) :=
    fun es h => .edit trivial ⟨place, hplace, rfl, fun e he => ⟨hl, h e he⟩⟩
  have hb : ∀ name v, Sets (bpmn "lane") d (setBraced place name v) := by
    intro name v
    unfold setBraced
    split
    · next hn => exact hed _ (forall_mem_singleton.mpr (.set v (ofBraced?_named hn)))
    · exact .throw trivial
  refine Adds.bind (Adds.forM ?_) fun _ => hed _ fun e he => (setFilled_qualified _ _ e he).named
  rintro ⟨name, v⟩ -
  refine Adds.discard ?_
  unfold setPrefixed
  split
  · exact (hb _ v).bind fun _ => .pure _
  · simp only
    split
    · exact Adds.bind (.note _) fun _ => .pure _
    · exact (hb _ v).bind fun _ => .pure _

theorem planUserTasks_qualifies (m : Model) (d : Document) : Qualifies d (planUserTasks m d) := by
  refine Adds.forM ?_
  rintro ⟨place, n⟩ hm
  obtain ⟨hplace, hl, -⟩ := mem_matched.mp hm
  simp only
  split
  · refine edit_qualifies hplace (hl ▸ by decide) fun e he => ?_
    exact (mem_append.mp he).elim (setFilled_qualified _ _ e) (setFilled_qualified _ _ e)
  · exact .pure _

theorem planVendorAttributes_qualifies (m : Model) (hd : IsNamedDocument d) :
    Qualifies d (planVendorAttributes m d) := by
  refine Adds.forM fun k _ => Adds.forM ?_
  rintro ⟨place, n⟩ hm
  refine Adds.forM ?_
  rintro ⟨name, v⟩ -
  simp only
  split
  · next ht =>
    rw [takesOver, Bool.and_eq_true] at ht
    obtain ⟨hplace, hl, -⟩ := mem_matched.mp hm
    exact (setPrefixed_qualifies hplace (hl ▸ carriesExtensions_tagName k) hd ht.1 v).discard
  · exact .pure _

/-- The label of the elements with the parameters of delegates. -/
abbrev parametersLabel : Label := extension "inputOutput"

end ProcessForge.Camunda
