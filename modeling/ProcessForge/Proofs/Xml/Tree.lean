import ProcessForge.Xml.Edit

/-! Elements of a tree. How the elements among the nodes of a content and below them are found, and what the
    basic edits of a content do to them. -/

namespace ProcessForge.Xml

open List Option

variable {n : Node} {tag : Tag} {l : Label} {content c : List Node} {p : Node → Bool}

variable {e : Element} {Q : Tag → Prop} {new : Node}

theorem eq_element_of_element? (h : n.element? = some e) : n = .element e.tag e.content := by
  cases n with
  | element tag c =>
    obtain rfl := some.inj h
    rfl
  | text | comment | instruction => cases h

/-! ### Elements among nodes -/

@[simp] theorem is_iff : tag.is l ↔ tag.name.label = l := beq_iff_eq

@[simp] theorem elementsAmong_nil : elementsAmong [] = [] := rfl

@[simp] theorem elementsAmong_element (tag : Tag) (c rest : List Node) :
    elementsAmong (.element tag c :: rest) = ⟨tag, c⟩ :: elementsAmong rest := rfl

theorem elementsAmong_leaf (h : n.element? = none) (rest : List Node) :
    elementsAmong (n :: rest) = elementsAmong rest := filterMap_cons_none h

theorem elementsAmong_append (xs ys : List Node) :
    elementsAmong (xs ++ ys) = elementsAmong xs ++ elementsAmong ys := filterMap_append

@[simp] theorem elements_element (tag : Tag) (content : List Node) :
    (Node.element tag content).elements = ⟨tag, content⟩ :: elementsBelow content := by
  rw [Node.elements]

theorem elements_leaf (h : n.element? = none) : n.elements = [] := by
  cases n with
  | element tag c => cases h
  | text | comment | instruction => simp [Node.elements]

@[simp] theorem elementsBelow_nil : elementsBelow [] = [] := by rw [elementsBelow]

@[simp] theorem elementsBelow_cons (n : Node) (rest : List Node) :
    elementsBelow (n :: rest) = n.elements ++ elementsBelow rest := by rw [elementsBelow]

theorem elementsBelow_append (xs ys : List Node) : elementsBelow (xs ++ ys) = elementsBelow xs ++ elementsBelow ys := by
  induction xs with
  | nil => simp
  | cons x xs ih => simp [ih]

theorem mem_elementsBelow : ∀ {c : List Node}, e ∈ elementsBelow c → ∃ n ∈ c, e ∈ n.elements
  | [], h => by
    cases h
  | n :: tl, h => by
    rcases mem_append.mp (elementsBelow_cons n tl ▸ h) with h | h
    · exact ⟨n, mem_cons_self .., h⟩
    · obtain ⟨b, ho, he⟩ := mem_elementsBelow h
      exact ⟨b, mem_cons_of_mem _ ho, he⟩

theorem elements_subset_elementsBelow (h : n ∈ content) : n.elements ⊆ elementsBelow content := by
  intro e he
  obtain ⟨pre, post, rfl⟩ := append_of_mem h
  rw [elementsBelow_append]
  simp [he]

/-- All tags of a node and below it meet a condition. -/
def Node.All (Q : Tag → Prop) (node : Node) : Prop := ∀ e ∈ node.elements, Q e.tag

theorem all_leaf (h : n.element? = none) : n.All Q := by
  intro e he
  rw [elements_leaf h] at he
  cases he

theorem all_element : (Node.element tag c).All Q ↔ Q tag ∧ ∀ n ∈ c, n.All Q := by
  constructor
  · intro h
    refine ⟨h ⟨tag, c⟩ (by simp), fun n hn e he => h e ?_⟩
    exact mem_cons_of_mem _ (elements_subset_elementsBelow hn he)
  · rintro ⟨ht, hc⟩ e he
    rw [elements_element, mem_cons] at he
    rcases he with rfl | he
    · exact ht
    · obtain ⟨n, hn, he⟩ := mem_elementsBelow he
      exact hc n hn e he

/-! ### Edits of a content -/

theorem removeNodes_cons (p : Node → Bool) (gone : Bool) (h : n.isText = false) (rest : List Node) :
    removeNodes p gone (n :: rest) = if p n then removeNodes p true rest else n :: removeNodes p false rest := by
  cases n with
  | text t => cases h
  | element | comment | instruction => simp [removeNodes]

theorem removeNodes_sublist (p : Node → Bool) (content : List Node) (gone : Bool) :
    (removeNodes p gone content).Sublist content := by
  fun_induction removeNodes p gone content with
  | case1 => exact .slnil
  | case2 _ _ ih | case4 _ _ _ _ _ ih => exact ih.cons _
  | case3 _ _ _ _ ih | case5 _ _ _ _ _ ih => exact ih.cons_cons _

theorem elementsAmong_removeNodes (p : Node → Bool) (c : List Node) (gone : Bool) :
    elementsAmong (removeNodes p gone c) = (elementsAmong c).filter fun e => !p e.node := by
  fun_induction removeNodes p gone c with
  | case1 => rfl
  | case2 s tl ih => exact ih
  | case3 gone s tl hg ih => exact ih
  | case4 gone n tl ht hp ih | case5 gone n tl ht hp ih =>
    cases n with
    | element => simpa [Element.node, hp] using ih
    | text | comment | instruction => exact ih

theorem insertBefore_eq_append (p : Node → Bool) (new : Node) (c : List Node) : ∃ pre after,
    c = pre ++ after ∧ insertBefore p new c = pre ++ new :: after := by
  induction c with
  | nil => exact ⟨[], [], rfl, rfl⟩
  | cons n tl ih =>
    rw [insertBefore]
    split
    · exact ⟨[], n :: tl, rfl, rfl⟩
    · obtain ⟨pre, after, hr, hn⟩ := ih
      exact ⟨n :: pre, after, by rw [hr, cons_append], by rw [hn, cons_append]⟩

theorem mem_insertBefore (h : n ∈ insertBefore p new content) : n = new ∨ n ∈ content := by
  obtain ⟨pre, post, rfl, hn⟩ := insertBefore_eq_append p new content
  rw [hn, mem_append, mem_cons] at h
  rw [mem_append]
  exact or_left_comm.mp h

theorem splitAtChild?_eq_some : ∀ {c pre t post : List Node} {tag : Tag}, splitAtChild? l c = some (pre, tag, t, post) →
    c = pre ++ .element tag t :: post ∧ tag.name.label = l ∧
    ∀ n ∈ pre, n.is l = false
  | [], _, _, _, _, h => by cases h
  | n :: tl, pre, t, post, tag, h => by
    have hl : ∀ {before'}, splitAtChild? l tl = some (before', tag, t, post) → n.is l = false → pre = n :: before' →
        n :: tl = pre ++ .element tag t :: post ∧ tag.name.label = l ∧
        ∀ n ∈ pre, n.is l = false := by
      rintro before' hf hn rfl
      obtain ⟨hr, hla, hb⟩ := splitAtChild?_eq_some hf
      refine ⟨by rw [hr, cons_append], hla, fun b ho => ?_⟩
      rcases mem_cons.mp ho with rfl | ho
      · exact hn
      · exact hb b ho
    cases n with
    | element tag' inner' =>
      rw [splitAtChild?] at h
      split at h
      · next ht =>
        cases h
        exact ⟨rfl, is_iff.mp ht, nofun⟩
      · next ht =>
        obtain ⟨⟨before', fd⟩, hf, heq⟩ := map_eq_some_iff.mp h
        cases heq
        exact hl hf ((Bool.not_eq_true _).mp ht) rfl
    | text | comment | instruction =>
      obtain ⟨⟨before', fd⟩, hf, heq⟩ := map_eq_some_iff.mp h
      cases heq
      exact hl hf rfl rfl

theorem splitAtChild?_of_any : ∀ {c : List Node}, c.any (Node.is l) → (splitAtChild? l c).isSome
  | [], h => by cases h
  | n :: tl, h => by
    cases n with
    | element tag t =>
      rw [splitAtChild?]
      split
      · rfl
      · next ht =>
        rw [isSome_map]
        refine splitAtChild?_of_any ?_
        simpa [Node.is, (Bool.not_eq_true _).mp ht] using h
    | text | comment | instruction =>
      simp only [splitAtChild?, isSome_map]
      exact splitAtChild?_of_any (by simpa [Node.is] using h)

theorem splitAtChild?_append (ht : tag.name.label = l) (t post : List Node) :
    ∀ {pre : List Node}, (∀ n ∈ pre, n.is l = false) →
    splitAtChild? l (pre ++ .element tag t :: post) = some (pre, tag, t, post)
  | [], _ => by rw [nil_append, splitAtChild?, if_pos (is_iff.mpr ht)]
  | n :: pre, h => by
    have ih := splitAtChild?_append ht t post fun b ho => h b (mem_cons_of_mem _ ho)
    have hn := h n (mem_cons_self ..)
    cases n with
    | element tag' inner' =>
      rw [Node.is] at hn
      rw [cons_append, splitAtChild?, hn, ih]
      rfl
    | text | comment | instruction =>
      simp only [cons_append, splitAtChild?, ih]
      rfl

theorem splitAtChild?_eq_none : splitAtChild? l c = none ↔ ∀ n ∈ c, n.is l = false := by
  constructor
  · intro h n hn
    cases hl : n.is l with
    | false => rfl
    | true =>
      have hs := splitAtChild?_of_any (any_eq_true.mpr ⟨n, hn, hl⟩)
      rw [h] at hs
      cases hs
  · intro h
    cases hsp : splitAtChild? l c with
    | none => rfl
    | some fd =>
      obtain ⟨pre, tag, t, post⟩ := fd
      obtain ⟨rfl, hla, -⟩ := splitAtChild?_eq_some hsp
      have ht := h (.element tag t) (by simp)
      rw [Node.is, is_iff.mpr hla] at ht
      cases ht

/-! ### Texts in front -/

theorem leadingText?_of_not_isText (h : n.isText = false) (tl : List Node) : leadingText? (n :: tl) = none := by
  cases n with
  | text s => cases h
  | element | comment | instruction => simp [leadingText?]

theorem leadingText?_text (s : String) (tl : List Node) :
    leadingText? (.text s :: tl) = some (s ++ (leadingText? tl).getD "") := by rw [leadingText?]

theorem leadingText?_append_cons (h : n.isText = false) (before post : List Node) :
    leadingText? (before ++ n :: post) = leadingText? before := by
  induction before with
  | nil => exact leadingText?_of_not_isText h post
  | cons a tl ih =>
    cases a with
    | text t => rw [cons_append, leadingText?_text, leadingText?_text, ih]
    | element | comment | instruction =>
      rw [cons_append, leadingText?_of_not_isText rfl, leadingText?_of_not_isText rfl]

theorem leadingText?_removeNodes (p : Node → Bool) (content : List Node) :
    leadingText? (removeNodes p true content) = none ∧
    leadingText? (removeNodes p false content) = leadingText? content := by
  induction content with
  | nil => exact ⟨rfl, rfl⟩
  | cons n tl ih =>
    cases n with
    | text s =>
      rw [removeNodes, removeNodes, if_neg Bool.false_ne_true, leadingText?_text, ih.2]
      exact ⟨ih.1, rfl⟩
    | element | comment | instruction =>
      rw [removeNodes_cons p true rfl, removeNodes_cons p false rfl]
      split
      · exact ⟨ih.1, ih.1⟩
      · exact ⟨leadingText?_of_not_isText rfl _, leadingText?_of_not_isText rfl _⟩

theorem leadingText?_insertBefore (hp : ∀ s, p (.text s) = false) (hn : new.isText = false)
    (content : List Node) : leadingText? (insertBefore p new content) = leadingText? content := by
  induction content with
  | nil => exact leadingText?_of_not_isText hn []
  | cons n tl ih =>
    rw [insertBefore]
    cases n with
    | text s => rw [if_neg (by simp [hp s]), leadingText?_text, leadingText?_text, ih]
    | element | comment | instruction =>
      split
      · exact leadingText?_of_not_isText hn _
      · exact leadingText?_of_not_isText rfl _

/-! ### Contents mapped node by node -/

/-- A map of nodes that keeps texts, and keeps the labels of elements. -/
structure KeepsKinds (f : Node → Node) : Prop where
  text : ∀ node : Node, node.isText = true → f node = node
  isText : ∀ node : Node, (f node).isText = node.isText
  is : ∀ (node : Node) (l : Label), (f node).is l = node.is l

namespace KeepsKinds

variable {f : Node → Node}

theorem any_is (hf : KeepsKinds f) (c : List Node) (l : Label) : (c.map f).any (Node.is l) = c.any (Node.is l) := by
  simp [Function.comp_def, hf.is]

theorem lacks (hf : KeepsKinds f) (c : List Node) (draft : Draft) : Xml.lacks (c.map f) draft = Xml.lacks c draft := by
  simp [Xml.lacks, hf.any_is]

theorem removeNodes (hf : KeepsKinds f) (hp : ∀ n, p (f n) = p n) (c : List Node) : ∀ gone : Bool,
    Xml.removeNodes p gone (c.map f) = (Xml.removeNodes p gone c).map f := by
  induction c with
  | nil => simp [Xml.removeNodes]
  | cons n tl ih =>
    intro gone
    cases ht : n.isText with
    | true =>
      cases n with
      | text s =>
        rw [map_cons, hf.text _ rfl, Xml.removeNodes, Xml.removeNodes]
        cases gone with
        | true => exact ih true
        | false => simp [hf.text (.text s) rfl, ih]
      | element | comment | instruction => cases ht
    | false =>
      rw [map_cons, removeNodes_cons p gone ht, removeNodes_cons p gone (by rw [hf.isText, ht]), hp]
      split
      · exact ih true
      · rw [map_cons, ih false]

theorem insertBefore (hp : ∀ n, p (f n) = p n) (new : Node) (c : List Node) :
    Xml.insertBefore p (f new) (c.map f) = (Xml.insertBefore p new c).map f := by
  induction c with
  | nil => simp [Xml.insertBefore]
  | cons n tl ih =>
    rw [map_cons, Xml.insertBefore, Xml.insertBefore, hp]
    split
    · simp
    · rw [map_cons, ih]

theorem setLeadingText (hf : KeepsKinds f) (s : String) (c : List Node) :
    Xml.setLeadingText s (c.map f) = (Xml.setLeadingText s c).map f := by
  rw [Xml.setLeadingText, Xml.setLeadingText, dropTexts, dropTexts, map_cons, hf.text _ rfl, dropWhile_map]
  simp [Function.comp_def, hf.isText]

theorem splitAtChild?_none (hf : KeepsKinds f) (h : splitAtChild? l c = none) : splitAtChild? l (c.map f) = none := by
  rw [splitAtChild?_eq_none] at h ⊢
  intro n hn
  obtain ⟨b, ho, rfl⟩ := mem_map.mp hn
  rw [hf.is, h b ho]

theorem splitAtChild?_some (hf : KeepsKinds f) {pre t post inner' : List Node} {tag' : Tag}
    (h : splitAtChild? l c = some (pre, tag, t, post)) (hc : f (.element tag t) = .element tag' inner') :
    splitAtChild? l (c.map f) = some (pre.map f, tag', inner', post.map f) := by
  obtain ⟨rfl, hl, hb⟩ := splitAtChild?_eq_some h
  have ht : (Node.element tag' inner').is l := by
    rw [← hc, hf.is, Node.is, is_iff, hl]
  rw [map_append, map_cons, hc]
  refine splitAtChild?_append (is_iff.mp ht) inner' _ fun n hn => ?_
  obtain ⟨b, ho, rfl⟩ := mem_map.mp hn
  rw [hf.is, hb b ho]

end KeepsKinds

end ProcessForge.Xml
