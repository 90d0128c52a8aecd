import ProcessForge.Proofs.Process.View
import ProcessForge.Proofs.Xml.Bare

/-! Changes that readers of processes do not see. A tree shows the same with other short forms and with other attributes
    in namespaces. Elements with a label can be removed from a document that shows nothing inside of them. -/

namespace ProcessForge.Process

open Xml List

variable {n : Node} {content c content' c' : List Node}

/-! ### Conditions -/

theorem conditionText_leaf (h : n.element? = none) (rest : List Node) :
    conditionText (n :: rest) = conditionText rest := by
  rw [conditionText, conditionText, elementsAmong_leaf h]

theorem conditionText_element (tag : Tag) (c rest : List Node) : conditionText (.element tag c :: rest)
      = if tag.is (bpmn "conditionExpression") then (leadingText? c).map Text.trim else conditionText rest := by
  rw [conditionText, elementsAmong_element, find?_cons]
  cases tag.is (bpmn "conditionExpression") <;> rfl

/-! ### Nodes that become others -/

/-- A node becomes another one that shows of itself what was seen of the first, and begins with the same text. -/
inductive Becomes (s s' : Sight) : Node → Node → Prop
  | leaf {node : Node} : node.element? = none → Becomes s s' node node
  | element {tag tag' : Tag} {content content' : List Node} : tag'.name.label = tag.name.label →
      s.attributes tag = s'.attributes tag' → leadingText? content' = leadingText? content →
      s.text tag content = s'.text tag' content' → contentView s content = contentView s' content' →
      Becomes s s' (.element tag content) (.element tag' content')

section

variable {s s' : Sight}

theorem Becomes.trans {s'' : Sight} {n' node'' : Node} (h : Becomes s s' n n')
    (h' : Becomes s' s'' n' node'') : Becomes s s'' n node'' := by
  cases h with
  | leaf hl =>
    cases h' with
    | leaf => exact .leaf hl
    | element => cases hl
  | element hla ha ht hs hv =>
    cases h' with
    | leaf hl => cases hl
    | element hl' ha' ht' hs' hv' =>
      exact .element (hl'.trans hla) (ha.trans ha') (ht'.trans ht) (hs.trans hs') (hv.trans hv')

theorem Becomes.of_elements {e e' : Element} (h : Becomes s s' e.node e'.node) :
    e'.tag.name.label = e.tag.name.label ∧ s.attributes e.tag = s'.attributes e'.tag ∧
      contentView s e.content = contentView s' e'.content := by
  obtain ⟨tag', c'⟩ := e'
  cases h with
  | leaf hle => cases hle
  | element hl ha _ _ hv => exact ⟨hl, ha, hv⟩

theorem contentView_eq_of_becomes (h : Forall₂ (Becomes s s') c content') :
    contentView s c = contentView s' content' := by
  induction h with
  | nil => simp
  | cons hn _ ih =>
    rw [contentView_cons, contentView_cons, ih]
    cases hn with
    | leaf hl => rw [nodeView_leaf s hl, nodeView_leaf s' hl]
    | element hla ha _ ht hv => rw [nodeView, nodeView, hla, ha, ht, hv]

theorem leadingText?_eq_of_becomes (h : Forall₂ (Becomes s s') content c') :
    leadingText? c' = leadingText? content := by
  induction h with
  | nil => rfl
  | @cons n n' tl tl' hn _ ih =>
    cases hn with
    | element => rw [leadingText?_of_not_isText rfl, leadingText?_of_not_isText rfl]
    | leaf hl =>
      cases n with
      | text s => rw [leadingText?_text, leadingText?_text, ih]
      | element tag content => cases hl
      | comment | instruction => rw [leadingText?_of_not_isText rfl, leadingText?_of_not_isText rfl]

theorem conditionText_eq_of_becomes (h : Forall₂ (Becomes s s') content c') :
    conditionText c' = conditionText content := by
  induction h with
  | nil => rfl
  | cons hn _ ih =>
    cases hn with
    | leaf hl => rw [conditionText_leaf hl, conditionText_leaf hl, ih]
    | element hla _ ht =>
      rw [conditionText_element, conditionText_element, Tag.is, Tag.is, hla, ht, ih]

theorem becomes_of_plain {tag tag' : Tag} (hl : tag'.name.label = tag.name.label)
    (hp : plainAttributes tag' = plainAttributes tag) (h : Forall₂ (Becomes s s) c c') :
    Becomes s s (.element tag c) (.element tag' c') := by
  have hg : ∀ stem, tag'.get? stem = tag.get? stem := by
    intro stem
    rw [get?_eq_lookup, get?_eq_lookup, hp]
  have his : ∀ l, tag'.is l = tag.is l := fun l => congrArg (· == l) hl
  refine .element hl ?_ (leadingText?_eq_of_becomes h) ?_ (contentView_eq_of_becomes h)
  · simp [Sight.attributes, his, hg, hp]
  · simp [Sight.text, his, hg, conditionText_eq_of_becomes h, leadingText?_eq_of_becomes h]

end

theorem plainAttributes_bare (tag : Tag) : plainAttributes tag.bare = plainAttributes tag := by
  rw [plainAttributes, plainAttributes, Tag.bare]
  simp [Label.bare, Name.label, Name.uri?]

mutual

theorem becomes_bare (s : Sight) : ∀ n : Node, Becomes s s n n.bare
  | .element tag c => becomes_of_plain (bare_label tag) (plainAttributes_bare tag) (forall₂_becomes_bare s c)
  | .text _ | .comment _ | .instruction _ _ => .leaf rfl

theorem forall₂_becomes_bare (s : Sight) : ∀ c : List Node, Forall₂ (Becomes s s) c (bareAll c)
  | [] => .nil
  | n :: tl => .cons (becomes_bare s n) (forall₂_becomes_bare s tl)

end

theorem contentView_bareAll (s : Sight) (content : List Node) :
    contentView s (bareAll content) = contentView s content :=
  (contentView_eq_of_becomes (forall₂_becomes_bare s content)).symm

/-! ### Documents that show nothing inside of some elements -/

/-- Nothing is seen inside of elements with the label. -/
def NoneInside (l : Label) (views : List View) : Prop := ∀ v ∈ View.partsBelow views, v.label ≠ l

section

variable {s : Sight} {l : Label} {tag : Tag}

theorem noneInside_cons : NoneInside l (contentView s (n :: c)) ↔
    NoneInside l (nodeView s n) ∧ NoneInside l (contentView s c) := by
  rw [contentView_cons, NoneInside, View.partsBelow_append, forall_mem_append, NoneInside, NoneInside]

theorem NoneInside.of_mem (h : NoneInside l (contentView s c)) (hm : n ∈ c) : NoneInside l (nodeView s n) := by
  induction c with
  | nil => cases hm
  | cons b tl ih =>
    obtain ⟨ho, hr⟩ := noneInside_cons.mp h
    rcases mem_cons.mp hm with rfl | hm
    · exact ho
    · exact ih hr hm

theorem NoneInside.nodeView_eq_nil (h : NoneInside l (nodeView s (.element tag c))) (hl : tag.name.label = l) :
    nodeView s (.element tag c) = [] := by
  refine eq_nil_iff_forall_not_mem.mpr fun v hv => h v ?_ ((label_of_mem_nodeView hv).trans hl)
  obtain ⟨pre, post, heq⟩ := append_of_mem hv
  cases v
  rw [heq, View.partsBelow_append]
  exact mem_append_right _ (mem_cons_self ..)

theorem NoneInside.inner (h : NoneInside l (nodeView s (.element tag c))) : NoneInside l (contentView s c) := by
  -- what is inside is seen, so the element around it is
  intro v hv
  refine h v ?_
  rw [nodeView]
  split
  · simp [hv]
  · rw [if_neg fun hn => by rw [List.isEmpty_iff.mp hn] at hv; cases hv]
    simp [hv]

mutual

theorem nodeView_eq_nil (s : Sight) : ∀ n : Node, (∀ e ∈ n.elements, isVisible e.tag.name.label = false) →
    nodeView s n = []
  | .element tag c, h => by
    rw [elements_element, forall_mem_cons] at h
    rw [nodeView, if_neg (by simp [h.1]), contentView_eq_nil s c h.2]
    rfl
  | .text _, _ | .comment _, _ | .instruction _ _, _ => nodeView_leaf s rfl

theorem contentView_eq_nil (s : Sight) : ∀ c : List Node,
    (∀ e ∈ elementsBelow c, isVisible e.tag.name.label = false) → contentView s c = []
  | [], _ => contentView_nil s
  | n :: tl, h => by
    rw [elementsBelow_cons, forall_mem_append] at h
    rw [contentView_cons, nodeView_eq_nil s n h.1, contentView_eq_nil s tl h.2]
    rfl

end

/-- Nothing is seen inside of elements that readers do not look for, if their contents show nothing. -/
theorem noneInside_contentView (hl : isVisible l = false) : ∀ c : List Node,
    (∀ e ∈ elementsBelow c, e.tag.name.label = l → contentView s e.content = []) → NoneInside l (contentView s c)
  | [], _ => forall_mem_nil _
  | .element tag c :: tl, h => by
    rw [elementsBelow_cons, forall_mem_append, elements_element, forall_mem_cons] at h
    have hin := noneInside_contentView hl c h.1.2
    refine noneInside_cons.mpr ⟨?_, noneInside_contentView hl tl h.2⟩
    rw [nodeView]
    split
    · next hv =>
      rw [NoneInside, View.partsBelow_cons, View.partsBelow_nil, append_nil]
      refine forall_mem_cons.mpr ⟨fun heq => ?_, hin⟩
      rw [← heq, View.label, hv] at hl
      cases hl
    · split
      · exact forall_mem_nil _
      · next hs =>
        rw [NoneInside, View.partsBelow_cons, View.partsBelow_nil, append_nil]
        exact forall_mem_cons.mpr ⟨fun heq => hs (List.isEmpty_iff.mpr (h.1.1 heq)), hin⟩
  | .text _ :: tl, h | .comment _ :: tl, h | .instruction _ _ :: tl, h => noneInside_contentView hl tl h

theorem contentView_removeNodes {p : Node → Bool} (h : ∀ n ∈ content, p n → nodeView s n = []) :
    ∀ gone : Bool, contentView s (removeNodes p gone content) = contentView s content := by
  intro gone
  fun_induction removeNodes p gone content with
  | case1 => rfl
  | case2 t tl ih =>
    rw [ih (forall_mem_cons.mp h).2, contentView_cons, nodeView_leaf s rfl, nil_append]
  | case3 _ _ _ _ ih | case5 _ _ _ _ _ ih => rw [contentView_cons, contentView_cons, ih (forall_mem_cons.mp h).2]
  | case4 _ n tl _ hp ih =>
    rw [ih (forall_mem_cons.mp h).2, contentView_cons, (forall_mem_cons.mp h).1 hp, nil_append]

end

end ProcessForge.Process
