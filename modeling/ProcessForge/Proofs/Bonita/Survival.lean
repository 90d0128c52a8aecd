import ProcessForge.Proofs.Planning
import ProcessForge.Proofs.Xml.Erasure

/-! Elements of a diagram that survive. What may be removed from an element and which of its attributes may change
    is said by its tag and by the tag around it. An element survives if its other attributes and its leading text
    are the same, and if its other children survive in their order, among new ones. Kinds only change to such that
    play no role, so that surviving twice is surviving. -/

namespace ProcessForge.Bonita

open Xml List Bool

/-! ### Roles -/

/-- Whether a tag is one of a flow element of some kinds. -/
def isElementOf (kinds : List String) (tag : Tag) : Bool := tag.is (.plain "elements") && kinds.contains (kindOf tag)

def isFlow (tag : Tag) : Bool := tag.is (.plain "connections") && kindOf tag == "process:SequenceFlow"

def isActor (tag : Tag) : Bool := tag.is (.plain "actors") && kindOf tag == "process:Actor"

/-- Whether a tag inside of another one is that of the contract of a task. -/
def isTaskContract (outer : Option Tag) (tag : Tag) : Bool :=
  tag.is (.plain "contract") && outer.any (isElementOf userTaskKinds)

/-- Whether a tag inside of another one is that of the condition of a sequence flow. -/
def isFlowCondition (outer : Option Tag) (tag : Tag) : Bool := tag.is (.plain "condition") && outer.any isFlow

/-- Labels of the children of flow elements that are replaced. -/
def replacedLabels : List Label := ["operations", "connectors", "formMapping"].map Label.plain

/-- Attributes of the condition of a sequence flow that are written. -/
def expressionLabels : List Label :=
  ["name", "content", "interpreter", "type", "returnType", "returnTypeFixed", "automaticDependencies"].map Label.plain

/-- Attributes of send tasks that are written. -/
def sendTaskLabels : List Label := [kindLabel, .plain "overrideActorsOfTheLane", .plain "priority"]

/-- Whether children with a label may be removed from an element, by its tag and the tag around it. -/
def isRemovable (outer : Option Tag) (tag : Tag) (child : Label) : Bool := (isTimer tag && child == .plain "condition")
    || isTaskContract outer tag
    || (tag.is (.plain "elements") && replacedLabels.contains child)
    || (isFlowCondition outer tag && child == .plain "referencedElements")

/-- Whether an attribute of an element may change, by its tag and the tag around it. -/
def isChangeable (outer : Option Tag) (tag : Tag) (l : Label) : Bool :=
  (isElementOf ["process:Lane"] tag && l == .plain "actor")
    || (isActor tag && l == .plain "initiator")
    || (isTaskContract outer tag && (tag.value? kindLabel).isNone && l == kindLabel)
    || (isFlowCondition outer tag && expressionLabels.contains l)
    || (isElementOf ["process:SendTask"] tag && sendTaskLabels.contains l)

/-- Kinds that are written, and that play no role. -/
def newKinds : List String := ["process:Contract", "process:Activity"]

/-! ### Survival -/

/-- A tag has the label and the attributes of another one, in their order, except for those that may change. Its
    kind is the same or a new one. -/
structure KeepsTag (outer : Option Tag) (tag tag' : Tag) : Prop where
  shown : tag'.bare.only (fun l => !isChangeable outer tag l) = tag.bare.only fun l => !isChangeable outer tag l
  kind : tag'.value? kindLabel = tag.value? kindLabel ∨ ∃ kind ∈ newKinds, tag'.value? kindLabel = some kind

/-- The children of an element that may not be removed. -/
def keptChildren (outer : Option Tag) (e : Element) : List Element :=
  (elementsAmong e.content).filter fun child => !isRemovable outer e.tag child.tag.name.label

/-- An element inside of another one survives as a third one: with its label, its attributes and its leading
    text, and with its children in their order, as far as they may not change. -/
inductive Survives : Option Tag × Element → Element → Prop
  | intro {outer : Option Tag} {e e' : Element} : KeepsTag outer e.tag e'.tag →
      leadingText? e'.content = leadingText? e.content →
      SublistForall₂ Survives ((keptChildren outer e).map (Prod.mk (some e.tag))) (elementsAmong e'.content) →
      Survives (outer, e) e'

/-! ### Roles are not gained -/

/-- A tag with the label of another one, and with its kind or a new one. -/
structure Follows (tag tag' : Tag) : Prop where
  label : tag'.name.label = tag.name.label
  kind : tag'.value? kindLabel = tag.value? kindLabel ∨ ∃ kind ∈ newKinds, tag'.value? kindLabel = some kind

theorem KeepsTag.label {outer : Option Tag} {tag tag' : Tag} (h : KeepsTag outer tag tag') :
    tag'.name.label = tag.name.label := by
  have hn := congrArg (fun tag : Tag => tag.name.label) h.shown
  simpa [Tag.only] using hn

theorem KeepsTag.follows {outer : Option Tag} {tag tag' : Tag} (h : KeepsTag outer tag tag') : Follows tag tag' :=
  ⟨h.label, h.kind⟩

section

variable {tag tag' : Tag} (h : Follows tag tag')

include h

theorem Follows.is (l : Label) : tag'.is l = tag.is l := by rw [Tag.is, Tag.is, h.label]

theorem Follows.kindOf {p : String → Bool} (hp : ∀ k ∈ newKinds, p k = false)
    (hk : p (Bonita.kindOf tag')) : p (Bonita.kindOf tag) := by
  rcases h.kind with heq | ⟨k, hn, heq⟩
  · rwa [Bonita.kindOf, heq] at hk
  · rw [Bonita.kindOf, heq, Option.getD_some, hp k hn] at hk
    cases hk

theorem Follows.isElementOf {kinds : List String} (hk : ∀ k ∈ newKinds, kinds.contains k = false)
    (hr : Bonita.isElementOf kinds tag') : Bonita.isElementOf kinds tag := by
  rw [Bonita.isElementOf, and_eq_true, h.is] at hr
  rw [Bonita.isElementOf, and_eq_true]
  exact ⟨hr.1, h.kindOf hk hr.2⟩

theorem Follows.isFlow (hr : Bonita.isFlow tag') : Bonita.isFlow tag := by
  rw [Bonita.isFlow, and_eq_true, h.is] at hr
  rw [Bonita.isFlow, and_eq_true]
  exact ⟨hr.1, h.kindOf (p := (· == "process:SequenceFlow")) (by decide) hr.2⟩

theorem Follows.isActor (hr : Bonita.isActor tag') : Bonita.isActor tag := by
  rw [Bonita.isActor, and_eq_true, h.is] at hr
  rw [Bonita.isActor, and_eq_true]
  exact ⟨hr.1, h.kindOf (p := (· == "process:Actor")) (by decide) hr.2⟩

theorem Follows.isTimer (hr : Bonita.isTimer tag') : Bonita.isTimer tag :=
  h.kindOf (p := fun k => Text.contains k "TimerEvent") (by decide) hr

theorem Follows.isNone_kind (hn : tag'.value? kindLabel = none) : tag.value? kindLabel = none := by
  rcases h.kind with heq | ⟨k, -, heq⟩
  · rw [← heq, hn]
  · rw [hn] at heq
    cases heq

variable {outer o' : Option Tag} (houter : Option.Rel Follows outer o')

include houter

theorem Follows.isTaskContract (hr : Bonita.isTaskContract o' tag') : Bonita.isTaskContract outer tag := by
  rw [Bonita.isTaskContract, and_eq_true, h.is] at hr
  rw [Bonita.isTaskContract, and_eq_true]
  refine ⟨hr.1, ?_⟩
  cases houter with
  | none => exact hr.2
  | some hf => exact hf.isElementOf (by decide) hr.2

theorem Follows.isFlowCondition (hr : Bonita.isFlowCondition o' tag') : Bonita.isFlowCondition outer tag := by
  rw [Bonita.isFlowCondition, and_eq_true, h.is] at hr
  rw [Bonita.isFlowCondition, and_eq_true]
  refine ⟨hr.1, ?_⟩
  cases houter with
  | none => exact hr.2
  | some hf => exact hf.isFlow hr.2

theorem Follows.isRemovable {child : Label} (hr : Bonita.isRemovable o' tag' child) :
    Bonita.isRemovable outer tag child := by
  simp only [Bonita.isRemovable, or_eq_true, and_eq_true, h.is] at hr ⊢
  rcases hr with ((⟨ht, hc⟩ | hcon) | he) | ⟨hco, hc⟩
  · exact .inl (.inl (.inl ⟨h.isTimer ht, hc⟩))
  · exact .inl (.inl (.inr (h.isTaskContract houter hcon)))
  · exact .inl (.inr he)
  · exact .inr ⟨h.isFlowCondition houter hco, hc⟩

theorem Follows.isChangeable {l : Label} (hr : Bonita.isChangeable o' tag' l) : Bonita.isChangeable outer tag l := by
  simp only [Bonita.isChangeable, or_eq_true, and_eq_true, Option.isNone_iff_eq_none] at hr ⊢
  rcases hr with (((⟨hla, hl⟩ | ⟨ha, hl⟩) | ⟨⟨hco, hn⟩, hl⟩) | ⟨hc, hl⟩) | ⟨hs, hl⟩
  · exact .inl (.inl (.inl (.inl ⟨h.isElementOf (by decide) hla, hl⟩)))
  · exact .inl (.inl (.inl (.inr ⟨h.isActor ha, hl⟩)))
  · exact .inl (.inl (.inr ⟨⟨h.isTaskContract houter hco, h.isNone_kind hn⟩, hl⟩))
  · exact .inl (.inr ⟨h.isFlowCondition houter hc, hl⟩)
  · exact .inr ⟨h.isElementOf (by decide) hs, hl⟩

end

/-! ### Surviving twice -/

theorem only_only {keeps keeps' : Label → Bool} (h : ∀ l, keeps l → keeps' l) (tag : Tag) :
    (tag.only keeps').only keeps = tag.only keeps := by
  rw [Tag.only, Tag.only, filter_filter]
  have hf : (fun a : Attribute => keeps a.name.label && keeps' a.name.label) = fun a => keeps a.name.label := by
    funext a
    cases hk : keeps a.name.label with
    | true => rw [h _ hk]; rfl
    | false => rfl
  rw [hf]
  rfl

theorem KeepsTag.trans {outer o' : Option Tag} {tag tag₁ tag₂ : Tag} (houter : Option.Rel Follows outer o')
    (h : KeepsTag outer tag tag₁) (h' : KeepsTag o' tag₁ tag₂) : KeepsTag outer tag tag₂ := by
  have hk : ∀ l, (!isChangeable outer tag l) → (!isChangeable o' tag₁ l) := by
    intro l hl
    rw [not_eq_true'] at hl ⊢
    exact eq_false_iff.mpr fun hr => absurd (h.follows.isChangeable houter hr) (by simp [hl])
  refine ⟨?_, ?_⟩
  · rw [← h.shown, ← only_only hk tag₂.bare, h'.shown, only_only hk]
  · rcases h'.kind with heq | hn
    · rw [heq]
      exact h.kind
    · exact .inr hn

theorem sizeOf_lt_of_mem {child e : Element} (h : child ∈ elementsAmong e.content) : sizeOf child < sizeOf e := by
  obtain ⟨n, hn, he⟩ := mem_filterMap.mp h
  have hl := List.sizeOf_lt_of_mem hn
  rw [eq_element_of_element? he] at hl
  obtain ⟨tag, c⟩ := child
  obtain ⟨tag', ns'⟩ := e
  simp only [Node.element.sizeOf_spec] at hl
  simp only [Element.mk.sizeOf_spec]
  omega

section

variable {α β γ : Type} {R : α → β → Prop} {l₁ : List α} {l₂ : List β}

/-- Members that all related ones are kept for may be looked for among those that are kept. -/
theorem sublistForall₂_filter {p : β → Bool} (h : SublistForall₂ R l₁ l₂)
    (hp : ∀ a ∈ l₁, ∀ b, R a b → p b) : SublistForall₂ R l₁ (l₂.filter p) := by
  induction h with
  | nil => exact .nil
  | @cons a b l₁ l₂ hab _ ih =>
    rw [filter_cons_of_pos (hp a (mem_cons_self ..) b hab)]
    exact .cons hab (ih fun a ha => hp a (mem_cons_of_mem _ ha))
  | @cons_right b l₁ l₂ _ ih =>
    rw [filter_cons]
    split
    · exact .cons_right (ih hp)
    · exact ih hp

theorem sublistForall₂_trans {S : β → γ → Prop} {T : α → γ → Prop} {l₃ : List γ} (h : SublistForall₂ R l₁ l₂)
    (h' : SublistForall₂ S l₂ l₃) (hT : ∀ a ∈ l₁, ∀ b c, R a b → S b c → T a c) : SublistForall₂ T l₁ l₃ := by
  induction h' generalizing l₁ with
  | nil =>
    cases h
    exact .nil
  | cons hb _ ih =>
    cases h with
    | nil => exact .nil
    | cons hab hr =>
      exact .cons (hT _ (mem_cons_self ..) _ _ hab hb) (ih hr fun a ha => hT a (mem_cons_of_mem _ ha))
    | cons_right hr => exact .cons_right (ih hr hT)
  | cons_right _ ih => exact .cons_right (ih h hT)

end

theorem Survives.trans (e : Element) {outer o' : Option Tag} {e₁ e₂ : Element}
    (houter : Option.Rel Follows outer o') (h : Survives (outer, e) e₁) (h' : Survives (o', e₁) e₂) :
    Survives (outer, e) e₂ := by
  obtain ⟨ht, hte, hch⟩ := h
  obtain ⟨hta', ht', hc'⟩ := h'
  refine ⟨ht.trans houter hta', ht'.trans hte, ?_⟩
  have hk : SublistForall₂ Survives ((keptChildren outer e).map (Prod.mk (some e.tag))) (keptChildren o' e₁) := by
    refine sublistForall₂_filter hch fun a ha b hab => ?_
    obtain ⟨child, hc, rfl⟩ := mem_map.mp ha
    obtain ⟨hl, -, -⟩ := hab
    have hf := (mem_filter.mp hc).2
    rw [not_eq_true'] at hf ⊢
    rw [hl.label]
    exact eq_false_iff.mpr fun hr => absurd (ht.follows.isRemovable houter hr) (by simp [hf])
  rw [sublistForall₂_map_left_iff] at hc'
  refine sublistForall₂_trans hk hc' fun a ha b c hab hb => ?_
  obtain ⟨child, hc, rfl⟩ := mem_map.mp ha
  have hs := sizeOf_lt_of_mem (mem_filter.mp hc).1
  exact Survives.trans child (.some ht.follows) hab hb
termination_by sizeOf e

/-! ### Edits that let elements survive -/

/-- An edit of an element changes and removes only what may be changed and removed. -/
inductive Harmless : Option Tag → Tag → Edit → Prop
  | set {outer : Option Tag} {tag : Tag} {l : Label} (value : String) : isChangeable outer tag l = true →
      (l = kindLabel → value ∈ newKinds) → Harmless outer tag (.set l value)
  | setKind {outer : Option Tag} {tag : Tag} {kind : String} : kind ∈ newKinds →
      (tag.value? kindLabel = none → isChangeable outer tag kindLabel = true) →
      Harmless outer tag (.setMissing kindLabel kind)
  | drop {outer : Option Tag} {tag : Tag} {stem : String} : isChangeable outer tag (.plain stem) = true →
      Harmless outer tag (.drop stem)
  | clear {outer : Option Tag} {tag : Tag} {child : Label} : isRemovable outer tag child = true →
      Harmless outer tag (.clear child)
  | clearAll {outer : Option Tag} {tag : Tag} : (∀ child, isRemovable outer tag child = true) →
      Harmless outer tag .clearAll
  | append {outer : Option Tag} {tag : Tag} (label : Label) (attributes : List (Label × DraftValue))
      (content : List Draft) : Harmless outer tag (.append (.element label attributes content))
  | ensure {outer : Option Tag} {tag : Tag} (label : Label) (attributes : List (Label × DraftValue))
      (content : List Draft) : Harmless outer tag (.ensure (.element label attributes content))
  | place {outer : Option Tag} {tag : Tag} (label : Label) (attributes : List (Label × DraftValue))
      (content : List Draft) (anchors : List Label) :
      Harmless outer tag (.place (.element label attributes content) anchors)
  | within {outer : Option Tag} {tag : Tag} {label : Label} {edits : List Edit} :
      (∀ child : Tag, child.name.label = label → ∀ edit ∈ edits, Harmless (some tag) child edit) →
      Harmless outer tag (.within label edits)

section

variable {outer : Option Tag} {tag tag₁ tag₂ : Tag}

theorem KeepsTag.put (h : KeepsTag outer tag tag₁) {l : Label} {v : String}
    (hl : isChangeable outer tag l) (hk : l = kindLabel → v ∈ newKinds)
    (hp : tag₂.bare = tag₁.bare.put l v) : KeepsTag outer tag tag₂ := by
  refine ⟨?_, ?_⟩
  · rw [hp, only_put, if_neg (by simp [hl]), h.shown]
  · rw [← bare_value?, hp, value?_put, bare_value?]
    split
    · next heq => exact .inr ⟨v, hk heq, rfl⟩
    · exact h.kind

theorem KeepsTag.drop (h : KeepsTag outer tag tag₁) {stem : String}
    (hl : isChangeable outer tag (.plain stem)) : KeepsTag outer tag (tag₁.drop stem) := by
  have hb : (tag₁.drop stem).bare = tag₁.bare.only fun l => l != .plain stem := by
    rw [Tag.drop, Tag.bare, Tag.bare, Tag.only, filter_map]
    simp [Function.comp_def]
  refine ⟨?_, ?_⟩
  · rw [hb, only_only, h.shown]
    intro l hf
    refine bne_iff_ne.mpr fun heq => ?_
    rw [heq, hl] at hf
    cases hf
  · have hk : (kindLabel != .plain stem) := bne_iff_ne.mpr fun heq => by cases congrArg Label.uri heq
    have hv : (tag₁.bare.only fun l => l != .plain stem).value? kindLabel = tag₁.bare.value? kindLabel := by
      refine value?_only ?_ _
      exact hk
    rw [← bare_value?, hb, hv, bare_value?]
    exact h.kind

variable {e : Element} {c : List Node}

theorem Survives.withTag (h : Survives (outer, e) ⟨tag₁, c⟩) (hta : KeepsTag outer e.tag tag₂) :
    Survives (outer, e) ⟨tag₂, c⟩ := by
  obtain ⟨-, ht, hc⟩ := h
  exact ⟨hta, ht, hc⟩

theorem writeAttribute_keepsTag (s : Scope) (h : KeepsTag outer tag tag₁) {l : Label} {v : String}
    (hl : isChangeable outer tag l) (hk : l = kindLabel → v ∈ newKinds) :
    Gives (writeAttribute s tag₁ l v) (KeepsTag outer tag) :=
  (writeAttribute_bare s tag₁ l v).mono fun _ hp => h.put hl hk hp

theorem Survives.insert (h : Survives (outer, e) ⟨tag₁, c⟩) {ns' : List Node}
    (ht : leadingText? ns' = leadingText? c) (hs : (elementsAmong c).Sublist (elementsAmong ns')) :
    Survives (outer, e) ⟨tag₁, ns'⟩ := by
  obtain ⟨hta, ht', hc⟩ := h
  obtain ⟨children, hf, hm⟩ := sublistForall₂_iff.mp hc
  exact ⟨hta, ht.trans ht', sublistForall₂_iff.mpr ⟨children, hf, hm.trans hs⟩⟩

theorem settle_not_isText (s : Scope) (l : Label) (ats : List (Label × DraftValue))
    (ds : List Draft) : Gives ((Draft.element l ats ds).settle s) fun n => n.isText = false := by
  refine (settle_settled _ s).mono fun n hn => ?_
  cases hn with
  | element => rfl

theorem Survives.append (h : Survives (outer, e) ⟨tag₁, c⟩) {new : Node} (hn : new.isText = false) :
    Survives (outer, e) ⟨tag₁, c ++ [new]⟩ := by
  refine h.insert (leadingText?_append_cons hn c []) ?_
  rw [elementsAmong_append]
  exact sublist_append_left ..

theorem Survives.placeNode (h : Survives (outer, e) ⟨tag₁, c⟩) {new : Node} (hn : new.isText = false)
    (anchors : List Label) : Survives (outer, e) ⟨tag₁, placeNode anchors new c⟩ := by
  rw [Xml.placeNode]
  split
  · next l _ =>
    refine h.insert (leadingText?_insertBefore (fun _ => rfl) hn c) ?_
    obtain ⟨pre, post, heq, hin⟩ := insertBefore_eq_append (Node.is l) new c
    rw [hin, heq]
    exact ((sublist_cons_self new post).append_left pre).filterMap _
  · exact h.append hn

theorem Survives.removeNodes (h : Survives (outer, e) ⟨tag₁, c⟩) {p : Node → Bool}
    (hp : ∀ child : Element, p child.node → isRemovable outer e.tag child.tag.name.label) :
    Survives (outer, e) ⟨tag₁, removeNodes p false c⟩ := by
  obtain ⟨hta, ht, hc⟩ := h
  refine ⟨hta, (leadingText?_removeNodes p c).2.trans ht, ?_⟩
  rw [elementsAmong_removeNodes]
  refine sublistForall₂_filter hc fun a ha b hab => ?_
  obtain ⟨child, hch, rfl⟩ := mem_map.mp ha
  obtain ⟨hl, -, -⟩ := hab
  have hf := (mem_filter.mp hch).2
  rw [not_eq_true'] at hf ⊢
  refine eq_false_iff.mpr fun hg => ?_
  rw [← hl.label, hp b hg] at hf
  cases hf

/-- A child may be replaced by one that survives for all that the child survives for. -/
theorem sublistForall₂_replace {α β : Type} {R : α → β → Prop} {b b' : β} : ∀ {pre post : List β} {l : List α},
    SublistForall₂ R l (pre ++ b :: post) → (∀ a ∈ l, R a b → R a b') →
    SublistForall₂ R l (pre ++ b' :: post)
  | [], post, l, h, hb => by
    cases h with
    | nil => exact .nil
    | cons hab hr => exact .cons (hb _ (mem_cons_self ..) hab) hr
    | cons_right hr => exact .cons_right hr
  | f :: pre, post, l, h, hb => by
    cases h with
    | nil => exact .nil
    | cons hab hr =>
      exact .cons hab (sublistForall₂_replace hr fun a ha => hb a (mem_cons_of_mem _ ha))
    | cons_right hr => exact .cons_right (sublistForall₂_replace hr hb)

end

theorem Harmless.apply {outer : Option Tag} {tag : Tag} {ed : Edit} (h : Harmless outer tag ed) :
    ∀ (e : Element), e.tag = tag → ∀ (s : Scope) (tag₁ : Tag) (c : List Node), Survives (outer, e) ⟨tag₁, c⟩ →
      Gives (ed.apply s tag₁ c) fun r => Survives (outer, e) ⟨r.1, r.2⟩ := by
  intro e he s tag₁ c hs
  induction h generalizing e s tag₁ c with (subst he; rw [Edit.apply])
  | set v hl hki =>
    obtain ⟨ht, -, -⟩ := id hs
    refine (writeAttribute_keepsTag s ht hl hki).bind fun tag₂ ht₂ => Gives.pure ?_
    exact hs.withTag ht₂
  | @setKind outer tag kind hne hm =>
    obtain ⟨ht, -, -⟩ := id hs
    split
    · exact Gives.pure hs
    · next hno =>
      rw [Option.not_isSome_iff_eq_none] at hno
      have hl := hm (ht.follows.isNone_kind hno)
      refine (writeAttribute_keepsTag s ht hl fun _ => hne).bind fun tag₂ ht₂ => Gives.pure ?_
      exact hs.withTag ht₂
  | drop hl =>
    obtain ⟨ht, -, -⟩ := id hs
    exact Gives.pure (hs.withTag (ht.drop hl))
  | clear hch =>
    refine Gives.pure (hs.removeNodes fun child hg => ?_)
    rw [Element.node, Node.is, is_iff] at hg
    rw [hg, hch]
  | clearAll hc =>
    exact Gives.pure (hs.removeNodes fun child _ => hc _)
  | append l ats ds =>
    refine (settle_not_isText _ l ats ds).bind fun n hn => Gives.pure ?_
    exact hs.append hn
  | ensure l ats ds =>
    split
    · refine (settle_not_isText _ l ats ds).bind fun n hn => Gives.pure ?_
      exact hs.append hn
    · exact Gives.pure hs
  | place l ats ds anchors =>
    refine (settle_not_isText _ l ats ds).bind fun n hn => Gives.pure ?_
    exact hs.placeNode hn anchors
  | @within outer tag l edits _ ih =>
    split
    · exact Gives.pure hs
    · next pre childTag t post hsp =>
      obtain ⟨rfl, hla, -⟩ := splitAtChild?_eq_some hsp
      obtain ⟨ht, hte, hc⟩ := hs
      -- whatever the child stands for, it stands for it after the edits
      have hch : Gives (applyEdits (tag₁.layer :: s) childTag t edits) fun r =>
          ∀ child : Element, Survives (some e.tag, child) ⟨childTag, t⟩ → Survives (some e.tag, child) ⟨r.1, r.2⟩ := by
        intro supply child ho
        obtain ⟨hk, -, -⟩ := id ho
        refine applyEdits_invariant (I := fun tag c => Survives (some e.tag, child) ⟨tag, c⟩)
          (fun ed hed => ?_) ho supply
        exact ih child.tag (hk.label.symm.trans hla) ed hed child rfl _
      refine hch.bind fun r hr => Gives.pure ?_
      refine ⟨ht, ?_, ?_⟩
      · rw [leadingText?_append_cons rfl] at hte ⊢
        exact hte
      · rw [elementsAmong_append] at hc ⊢
        refine sublistForall₂_replace hc fun a ha ho => ?_
        obtain ⟨child, -, rfl⟩ := mem_map.mp ha
        exact hr child ho

/-! ### Rounds that let elements survive -/

/-- An element survives wherever it stands, and other nodes stay as they are. -/
inductive NodeSurvives : Node → Node → Prop
  | leaf {node : Node} : node.element? = none → NodeSurvives node node
  | element {e e' : Element} : (∀ outer, Survives (outer, e) e') → NodeSurvives e.node e'.node

theorem NodeSurvives.of_parts {tag tag' : Tag} {c ns' : List Node}
    (h : ∀ outer, Survives (outer, ⟨tag, c⟩) ⟨tag', ns'⟩) :
    NodeSurvives (.element tag c) (.element tag' ns') := .element h

theorem forall₂_elementsAmong {content ns' : List Node} (h : Forall₂ NodeSurvives content ns') :
    Forall₂ (fun e e' => ∀ outer, Survives (outer, e) e') (elementsAmong content) (elementsAmong ns') ∧
    leadingText? ns' = leadingText? content := by
  induction h with
  | nil => exact ⟨.nil, rfl⟩
  | @cons node n' tl tl' hn _ ih =>
    cases hn with
    | leaf hl =>
      rw [elementsAmong_leaf hl, elementsAmong_leaf hl]
      refine ⟨ih.1, ?_⟩
      cases node with
      | text s => rw [leadingText?_text, leadingText?_text, ih.2]
      | element tag content => cases hl
      | comment | instruction => rw [leadingText?_of_not_isText rfl, leadingText?_of_not_isText rfl]
    | element hs =>
      exact ⟨.cons hs ih.1, rfl⟩

theorem survives_of_forall₂ {outer : Option Tag} {tag tag' : Tag} {c ns' : List Node}
    (hta : KeepsTag outer tag tag') (h : Forall₂ NodeSurvives c ns') :
    Survives (outer, ⟨tag, c⟩) ⟨tag', ns'⟩ := by
  obtain ⟨hc, ht⟩ := forall₂_elementsAmong h
  refine ⟨hta, ht, ?_⟩
  rw [keptChildren]
  generalize elementsAmong c = children at hc ⊢
  generalize elementsAmong ns' = children' at hc ⊢
  induction hc with
  | nil => exact .nil
  | cons hch _ ih =>
    rw [filter_cons]
    split
    · exact .cons (hch _) ih
    · exact .cons_right ih

theorem KeepsTag.refl (outer : Option Tag) (tag : Tag) : KeepsTag outer tag tag := ⟨rfl, .inl rfl⟩

theorem perform_survives {n : Node} {js : List Job}
    (hj : n.Fits (fun e own => ∀ ed ∈ own, ∀ outer, Harmless outer e.tag ed) js) (s : Scope) :
    Gives (n.perform s js) (NodeSurvives n) := by
  refine Node.Fits.perform (T := fun e _ tag => ∀ outer, KeepsTag outer e.tag tag) (fun _ => .leaf)
    (fun s e own ho => ?_) (fun s e own tag c ho ht hc => ?_) n s js hj
  · intro supply outer
    have hed : Gives (applyEdits s e.tag [] (own.filter Edit.isOfTag)) fun r =>
        Survives (outer, ⟨e.tag, []⟩) ⟨r.1, r.2⟩ :=
      applyEdits_invariant (I := fun tag c => Survives (outer, ⟨e.tag, []⟩) ⟨tag, c⟩)
        (fun ed he => (ho ed (mem_filter.mp he).1 outer).apply ⟨e.tag, []⟩ rfl s)
        (survives_of_forall₂ (.refl outer e.tag) .nil)
    obtain ⟨ht, -, -⟩ := hed supply
    exact ht
  · intro supply
    refine .of_parts fun outer => ?_
    exact applyEdits_invariant (I := fun tag c => Survives (outer, e) ⟨tag, c⟩)
      (fun ed he => (ho ed (mem_filter.mp he).1 outer).apply _ rfl s)
      (survives_of_forall₂ (ht outer) hc) supply

theorem perform_root_survives {d : Document} {js : List Job} (hj : ∀ job ∈ js, ∃ p ∈ d.root.places, p.path = job.path ∧
      ∀ ed ∈ job.edits, ∀ outer, Harmless outer p.element.tag ed) (nextId : Nat) :
    ∀ outer, Survives (outer, d.root) (d.perform nextId js).1.root := by
  have hr := root_of_perform (perform_survives (fits_of_places d.root.node [] js hj) []) nextId
  generalize hn : d.root.node = node at hr
  generalize hn' : (d.perform nextId js).1.root.node = n' at hr
  cases hr with
  | leaf hl =>
    rw [← hn] at hl
    cases hl
  | element hs =>
    rwa [node_injective hn, node_injective hn']

mutual

/-- Elements survive if only their short forms and declarations change. -/
theorem nodeSurvives_of_rebound : ∀ (n' : Node) {n : Node}, Rebound n n' → NodeSurvives n n'
  | .element tag' ns', .element tag c, .element ht hc => by
    refine .of_parts fun outer =>
      survives_of_forall₂ ⟨by rw [ht.bare], .inl ?_⟩ (forall₂_of_rebound ns' hc)
    rw [← bare_value?, ht.bare, bare_value?]
  | .text _, _, .leaf hl | .comment _, _, .leaf hl | .instruction _ _, _, .leaf hl => .leaf hl

theorem forall₂_of_rebound : ∀ (ns' : List Node) {c : List Node}, Forall₂ Rebound c ns' → Forall₂ NodeSurvives c ns'
  | [], _, .nil => .nil
  | n' :: tl', _, .cons hn hr =>
    .cons (nodeSurvives_of_rebound n' hn) (forall₂_of_rebound tl' hr)

end

end ProcessForge.Bonita
