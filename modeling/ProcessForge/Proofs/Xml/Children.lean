import ProcessForge.Proofs.Planning
import ProcessForge.Proofs.Xml.Draft

/-! Children of an element, and new children in front of an anchor. The anchor is looked for again for each of
    them, and it is the same each time: the new children stand right in front of it in their order. -/

namespace ProcessForge.Xml

open List

variable {node n : Node} {content c : List Node}

/-! ### Children -/

/-- The nodes of a content that are no texts. -/
def childNodes (content : List Node) : List Node := content.filter fun node => !node.isText

theorem childNodes_append (xs ys : List Node) : childNodes (xs ++ ys) = childNodes xs ++ childNodes ys :=
  filter_append ..

theorem childNodes_cons (h : n.isText = false) (rest : List Node) :
    childNodes (n :: rest) = n :: childNodes rest := filter_cons_of_pos (by simp [h])

theorem childNodes_eq_self (h : ∀ n ∈ content, n.isText = false) :
    childNodes content = content := filter_eq_self.mpr fun n hn => by simp [h n hn]

theorem mem_of_mem_childNodes (h : n ∈ childNodes content) : n ∈ content := mem_of_mem_filter h

theorem isText_of_is {l : Label} (h : n.is l) : n.isText = false := by
  cases n with
  | text s => cases h
  | element | comment | instruction => rfl

/-- Texts aside, exactly the nodes of the class go away. -/
theorem childNodes_removeNodes (p : Node → Bool) (c : List Node) (gone : Bool) :
    childNodes (removeNodes p gone c) = (childNodes c).filter fun node => !p node := by
  fun_induction removeNodes p gone c with
  | case1 => rfl
  | case2 s tl ih => exact ih
  | case3 gone s tl hg ih => exact ih
  | case4 gone node tl ht hp ih | case5 gone node tl ht hp ih =>
    cases node with
    | text s => exact absurd rfl (ht s)
    | element | comment | instruction => simpa [childNodes, Node.isText, hp] using ih

theorem removeNodes_behind (c : List Node) : removeNodes (fun _ => true) true c = [] := by
  induction c with
  | nil => rfl
  | cons n tl ih =>
    cases n with
    | text s => rw [removeNodes, if_pos rfl, ih]
    | element | comment | instruction => rw [removeNodes_cons _ _ rfl, if_pos rfl, ih]

/-- Of a content without its children, the texts in front of the first child are left. -/
theorem removeNodes_all (c : List Node) : removeNodes (fun _ => true) false c = c.takeWhile Node.isText := by
  induction c with
  | nil => rfl
  | cons n tl ih =>
    cases n with
    | text s => rw [removeNodes, if_neg Bool.false_ne_true, ih, takeWhile_cons_of_pos rfl]
    | element | comment | instruction =>
      rw [removeNodes_cons _ _ rfl, if_pos rfl, removeNodes_behind, takeWhile_cons_of_neg Bool.false_ne_true]

/-! ### Anchors -/

/-- A node between others is their anchor: the first one with a label, and that is the first of the labels that
    any of them has. -/
def IsAnchor (anchors : List Label) (before : List Node) (anchor : Node) (after : List Node) : Prop :=
  ∃ earlier label later, anchors = earlier ++ label :: later ∧ anchor.is label = true ∧
    (∀ node ∈ before, node.is label = false) ∧ ∀ l ∈ earlier, ∀ node ∈ before ++ anchor :: after, node.is l = false

theorem exists_first {α : Type} {p : α → Bool} : ∀ {xs : List α}, xs.any p →
    ∃ b x a, xs = b ++ x :: a ∧ p x ∧ ∀ y ∈ b, p y = false
  | [], h => by cases h
  | x :: xs, h => by
    cases hx : p x with
    | true => exact ⟨[], x, xs, rfl, hx, forall_mem_nil _⟩
    | false =>
      rw [any_cons, hx] at h
      obtain ⟨b, y, a, rfl, hy, hb⟩ := exists_first h
      exact ⟨x :: b, y, a, rfl, hy, forall_mem_cons.mpr ⟨hx, hb⟩⟩

theorem exists_isAnchor {anchors : List Label} (h : ∃ l ∈ anchors, c.any (Node.is l)) :
    ∃ b anchor after, c = b ++ anchor :: after ∧ IsAnchor anchors b anchor after := by
  obtain ⟨earlier, label, later, ha, hla, he⟩ := exists_first (any_eq_true.mpr h)
  obtain ⟨b, anchor, after, rfl, han, hb⟩ := exists_first hla
  refine ⟨b, anchor, after, rfl, earlier, label, later, ha, han, hb, fun l hl n hn => ?_⟩
  exact (Bool.not_eq_true _).mp (any_eq_false.mp (he l hl) n hn)

namespace IsAnchor

variable {anchors : List Label} {before b after a : List Node} {anchor : Node}

theorem isText (h : IsAnchor anchors before anchor a) : anchor.isText = false := by
  obtain ⟨-, l, -, -, ha, -⟩ := h
  exact isText_of_is ha

theorem placeNode (h : IsAnchor anchors b anchor after) (new : Node) :
    placeNode anchors new (b ++ anchor :: after) = b ++ new :: anchor :: after := by
  obtain ⟨earlier, label, later, rfl, ha, hb, he⟩ := h
  have hf : firstAnchor? (b ++ anchor :: after) (earlier ++ label :: later) = some label := by
    have hn : earlier.find? (fun l => (b ++ anchor :: after).any (Node.is l)) = none := by
      refine find?_eq_none.mpr fun l hl => ?_
      rw [Bool.not_eq_true, any_eq_false]
      exact fun n hno => by simp [he l hl n hno]
    rw [firstAnchor?, find?_append, hn, Option.none_or, find?_cons_of_pos]
    exact any_eq_true.mpr ⟨anchor, by simp, ha⟩
  rw [Xml.placeNode, hf]
  simp only
  clear hf he
  induction b with
  | nil => rw [nil_append, insertBefore, if_pos ha, nil_append]
  | cons n b ih =>
    rw [forall_mem_cons] at hb
    rw [cons_append, insertBefore, if_neg (by simp [hb.1]), ih hb.2, cons_append]

theorem insert (h : IsAnchor anchors b anchor after) {new : List Node}
    (hne : ∀ n ∈ new, ∀ l ∈ anchors, n.is l = false) : IsAnchor anchors (b ++ new) anchor after := by
  obtain ⟨earlier, label, later, rfl, ha, hb, he⟩ := h
  refine ⟨earlier, label, later, rfl, ha, fun n hn => ?_, fun l hl n hn => ?_⟩
  · rcases mem_append.mp hn with hn | hn
    · exact hb n hn
    · exact hne n hn label (by simp)
  · rcases mem_append.mp hn with hn | haf
    · rcases mem_append.mp hn with hn | hn
      · exact he l hl n (mem_append_left _ hn)
      · exact hne n hn l (mem_append_left _ hl)
    · exact he l hl n (mem_append_right _ haf)

theorem childNodes (h : IsAnchor anchors b anchor a) : IsAnchor anchors (childNodes b) anchor (childNodes a) := by
  have ht := h.isText
  obtain ⟨earlier, label, later, ha, han, hb, he⟩ := h
  refine ⟨earlier, label, later, ha, han, fun n hn => hb n (mem_of_mem_childNodes hn), fun l hl n hn => he l hl n ?_⟩
  rw [← childNodes_cons ht, ← childNodes_append] at hn
  exact mem_of_mem_childNodes hn

end IsAnchor

/-! ### New children -/

theorem applyEdits_append (o : Scope) (second : List Edit) : ∀ (f : List Edit) (tag : Tag) (c : List Node),
    applyEdits o tag c (f ++ second) = applyEdits o tag c f >>= fun r => applyEdits o r.1 r.2 second
  | [], tag, c => by rw [nil_append, applyEdits, pure_bind]
  | e :: tl, tag, c => by
    rw [cons_append, applyEdits, applyEdits, bind_assoc]
    exact bind_congr fun r => applyEdits_append o second tl r.1 r.2

theorem Settled.is {d : Draft} (h : Settled d n) {l : Label} (hl : d.label? ≠ some l) : n.is l = false := by
  cases h with
  | text s => rfl
  | element ht _ =>
    refine (Bool.not_eq_true _).mp fun hn => hl ?_
    rw [Draft.label?, ← ht.label, is_iff.mp hn]

/-- New children that are placed one after the other stand in front of the anchor, in their order. -/
theorem applyEdits_place {anchors : List Label} {anchor : Node} (o : Scope) (tag : Tag) (after : List Node) :
    ∀ (ds : List Draft) (before : List Node), IsAnchor anchors before anchor after →
    (∀ d ∈ ds, ∀ l ∈ anchors, d.label? ≠ some l) →
    Gives (applyEdits o tag (before ++ anchor :: after) (ds.map fun d => .place d anchors))
      fun r => ∃ new, Forall₂ Settled ds new ∧ r = (tag, before ++ new ++ anchor :: after) ∧
        IsAnchor anchors (before ++ new) anchor after
  | [], before, h, _ => Gives.pure ⟨[], .nil, by simp, by simpa using h⟩
  | d :: tl, before, h, hd => by
    rw [forall_mem_cons] at hd
    rw [map_cons, applyEdits, Edit.apply, bind_assoc]
    refine (settle_settled d (tag.layer :: o)).bind fun n hn => ?_
    have hne : ∀ b ∈ [n], ∀ l ∈ anchors, b.is l = false := by
      simpa using fun l hl => hn.is (hd.1 l hl)
    have hp : Xml.placeNode anchors n (before ++ anchor :: after) = (before ++ [n]) ++ anchor :: after := by
      rw [h.placeNode, append_assoc, singleton_append]
    rw [hp]
    refine (applyEdits_place o tag after tl _ (h.insert hne) hd.2).mono fun r hr => ?_
    obtain ⟨new, hal, rfl, ha⟩ := hr
    refine ⟨n :: new, .cons hn hal, by simp, by simpa using ha⟩

end ProcessForge.Xml
