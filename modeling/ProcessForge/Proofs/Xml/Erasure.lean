import ProcessForge.Proofs.Xml.Fusion

/-! Erasures of trees. An erasure leaves out attributes and children of elements, by the labels and ids of the
    elements. Two revisions that write the same attributes, as far as an erasure keeps them, and contents of
    which it leaves the same, cannot be told apart after the erasure. -/

namespace ProcessForge.Xml

open List

section

variable {quiet q : Label → Prop} (keeps : Label → Bool)

/-! ### Attributes -/

def Tag.only (tag : Tag) : Tag := { tag with attributes := tag.attributes.filter fun a => keeps a.name.label }

/-- Whether an edit writes an attribute that is kept. -/
def Edit.shows (edit : Edit) : Bool := edit.written?.any keeps

theorem filter_putAttribute (name : Name) (v : String) (ats : List Attribute) :
    (putAttribute name v ats).filter (fun a => keeps a.name.label)
      = if keeps name.label then putAttribute name v (ats.filter fun a => keeps a.name.label)
        else ats.filter fun a => keeps a.name.label := by
  induction ats with
  | nil => cases hn : keeps name.label <;> simp [putAttribute, hn]
  | cons a tl ih =>
    by_cases ha : a.name.label = name.label
    · cases hn : keeps name.label <;> simp [putAttribute, ha, hn]
    · cases hn : keeps name.label <;> cases hk : keeps a.name.label <;>
        simp [putAttribute, ha, hn, hk, ih]

theorem only_put (tag : Tag) (l : Label) (v : String) : (tag.put l v).only keeps
    = if keeps l then (tag.only keeps).put l v else tag.only keeps := by
  have hf := filter_putAttribute keeps l.bare v tag.attributes
  rw [label_bare] at hf
  rw [Tag.only, Tag.put, hf]
  split
  · rfl
  · rfl

variable {keeps}

theorem value?_only {label : Label} (h : keeps label) (tag : Tag) :
    (tag.only keeps).value? label = tag.value? label := by
  rw [Tag.value?, Tag.only, find?_filter]
  congr 2
  funext a
  by_cases ha : a.name.label = label
  · simp [ha, h]
  · simp [ha]

theorem QuietEdit.only_onTag {e : Edit} (h : QuietEdit quiet e) (tag : Tag) : (e.onTag tag).only keeps
    = if e.shows keeps then e.onTag (tag.only keeps) else tag.only keeps := by
  cases h with
  | set v _ => exact only_put keeps tag _ v
  | @setMissing l v _ =>
    rw [Edit.onTag, Edit.onTag, Edit.shows, Edit.written?, Option.any_some]
    cases hk : keeps l with
    | true =>
      rw [value?_only hk, if_pos rfl]
      split
      · rfl
      · rw [only_put, if_pos hk]
    | false =>
      split
      · rfl
      · rw [only_put, if_neg (by simp [hk])]
        rfl
  | setText | clear | append | ensure | ensureFirst | within => rfl

theorem only_editTag {es : List Edit} (h : ∀ e ∈ es, QuietEdit q e) : ∀ tag : Tag,
    (editTag es tag).only keeps = editTag (es.filter (Edit.shows keeps)) (tag.only keeps) := by
  induction es with
  | nil => exact fun _ => rfl
  | cons e tl ih =>
    intro tag
    have hf : (e.onTag tag).only keeps = if e.shows keeps then e.onTag (tag.only keeps) else tag.only keeps :=
      (h e (mem_cons_self ..)).only_onTag tag
    have hr := ih (fun e he => h e (mem_cons_of_mem _ he)) (e.onTag tag)
    rw [filter_cons]
    split
    · next hs =>
      rw [if_pos hs] at hf
      rw [hf] at hr
      exact hr
    · next hs =>
      rw [if_neg hs] at hf
      rw [hf] at hr
      exact hr

end

/-! ### Trees -/

/-- What an erasure keeps. -/
structure Erasure where
  /-- Whether elements with the first label keep attributes with the second one. -/
  keeps : Label → Label → Bool
  /-- What is left of a content, by the label and the id of the element. -/
  content : Label → Option String → List Node → List Node

mutual

def Node.erase (x : Erasure) : Node → Node
  | .element tag content =>
    .element (tag.only (x.keeps tag.name.label)) (x.content tag.name.label (tag.get? "id") (eraseAll x content))
  | node => node

def eraseAll (x : Erasure) : List Node → List Node
  | [] => []
  | node :: rest => node.erase x :: eraseAll x rest

end

/-- What is left of an element, with an erasure for itself and one for the elements below. -/
def Element.erase (top below : Erasure) (e : Element) : Element := ⟨e.tag.only (top.keeps e.tag.name.label),
    top.content e.tag.name.label (e.tag.get? "id") (eraseAll below e.content)⟩

/-- What is left of a document, with an erasure for its root and one for the elements below. -/
def Document.erase (top below : Erasure) (d : Document) : Document := { d with root := d.root.erase top below }

section

variable {quiet q : Label → Prop} (x : Erasure)

@[simp] theorem erase_element (tag : Tag) (ns : List Node) : (Node.element tag ns).erase x
    = .element (tag.only (x.keeps tag.name.label)) (x.content tag.name.label (tag.get? "id") (eraseAll x ns)) := by
  rw [Node.erase]

theorem erase_leaf {node : Node} (h : node.element? = none) : node.erase x = node := by
  cases node with
  | element tag ns => cases h
  | text | comment | instruction => simp [Node.erase]

theorem eraseAll_eq_map (ns : List Node) : eraseAll x ns = ns.map (Node.erase x) := by
  induction ns with
  | nil => rw [eraseAll, map_nil]
  | cons n tl ih => rw [eraseAll, ih, map_cons]

theorem keepsKinds_erase : KeepsKinds (Node.erase x) where
  text node h := by
    cases node with
    | text s => exact erase_leaf x rfl
    | element | comment | instruction => cases h
  isText node := by
    cases node with
    | element => simp [Node.isText]
    | text | comment | instruction => rw [erase_leaf x rfl]
  is node l := by
    cases node with
    | element tag ns => rfl
    | text | comment | instruction => rw [erase_leaf x rfl]

/-- Nothing is left out of elements with labels of a class. -/
def Erasure.Spares (quiet : Label → Prop) : Prop := ∀ label, quiet label →
  (∀ l, x.keeps label l = true) ∧ ∀ id content, x.content label id content = content

variable {x}

theorem passesThrough_erase (h : x.Spares quiet) : PassesThrough quiet (Node.erase x) where
  toKeepsKinds := keepsKinds_erase x
  element tag t hl := by
    obtain ⟨hk, hc⟩ := h tag.name.label hl
    have ht : tag.only (x.keeps tag.name.label) = tag := by
      rw [Tag.only, filter_eq_self.mpr fun a _ => hk a.name.label]
    rw [erase_element, ht, hc, eraseAll_eq_map]

theorem editContent_eraseAll (hx : x.Spares q) {es : List Edit} (h : ∀ e ∈ es, QuietEdit q e) (ns : List Node) :
    eraseAll x (editContent es ns) = editContent es (eraseAll x ns) := by
  rw [eraseAll_eq_map, eraseAll_eq_map]
  exact editContent_map (fun e he => (h e he).onContent_map (passesThrough_erase hx)) ns

/-! ### Revisions that cannot be told apart -/

/-- Two manuals write the same, as far as an erasure keeps it. -/
structure Erasure.Agrees (x : Erasure) (manual manual' : Manual) : Prop where
  shown : ∀ label id, (manual label id).filter (Edit.shows (x.keeps label))
    = (manual' label id).filter (Edit.shows (x.keeps label))
  content : ∀ label id content, x.content label id (editContent (manual label id) content)
    = x.content label id (editContent (manual' label id) content)

variable {m manual' : Manual}

theorem Erasure.Agrees.only_editTag (ha : x.Agrees m manual') (h : m.IsQuiet quiet)
    (h' : manual'.IsQuiet quiet) (tag : Tag) : (editTag (m.edits tag) tag).only (x.keeps tag.name.label)
      = (editTag (manual'.edits tag) tag).only (x.keeps tag.name.label) := by
  rw [Xml.only_editTag (h.edits tag), Xml.only_editTag (h'.edits tag), Manual.edits, ha.shown]
  rfl

/-- An element keeps the same content after either revision, if the nodes below it are left the same. -/
theorem Erasure.Agrees.content_eq {below : Erasure} (hb : below.Spares quiet) (ha : x.Agrees m manual')
    (h : m.IsQuiet quiet) (h' : manual'.IsQuiet quiet) (tag : Tag) {ns ns' : List Node}
    (hc : eraseAll below ns = eraseAll below ns') :
    x.content tag.name.label (tag.get? "id") (eraseAll below (editContent (m.edits tag) ns))
      = x.content tag.name.label (tag.get? "id") (eraseAll below (editContent (manual'.edits tag) ns')) := by
  rw [editContent_eraseAll hb (h.edits tag), editContent_eraseAll hb (h'.edits tag), hc, Manual.edits, ha.content]
  rfl

theorem eraseAll_reviseAll (hx : x.Spares quiet) (ha : x.Agrees m manual') (h : m.IsQuiet quiet)
    (h' : manual'.IsQuiet quiet) : ∀ ns : List Node, eraseAll x (reviseAll m ns) = eraseAll x (reviseAll manual' ns)
  | [] => by rw [reviseAll_nil, reviseAll_nil]
  | .element tag ns :: tl => by
    rw [reviseAll_cons, reviseAll_cons, eraseAll, eraseAll, revise_element, revise_element, erase_element,
      erase_element, editTag_name, editTag_name, editTag_id (h.edits tag), editTag_id (h'.edits tag), ha.only_editTag h h',
      ha.content_eq hx h h' tag (eraseAll_reviseAll hx ha h h' ns), eraseAll_reviseAll hx ha h h' tl]
  | .text _ :: tl | .comment _ :: tl | .instruction _ _ :: tl =>
    congrArg (_ :: ·) (eraseAll_reviseAll hx ha h h' tl)

/-- Revisions of a document that agree as far as erasures keep what they write leave the same behind. -/
theorem document_erase_revise {top : Erasure} {f first' : Manual} (hx : x.Spares quiet)
    (ha : x.Agrees m manual') (h : m.IsQuiet quiet) (h' : manual'.IsQuiet quiet)
    (ht : top.Agrees f first') (hf : f.IsQuiet quiet) (hf' : first'.IsQuiet quiet) (d : Document) :
    (d.revise f m).erase top x = (d.revise first' manual').erase top x := by
  have hr : (d.root.revise f m).erase top x = (d.root.revise first' manual').erase top x := by
    rw [Element.erase, Element.erase, Element.revise, Element.revise, editTag_name, editTag_name,
      editTag_id (hf.edits _), editTag_id (hf'.edits _), ht.only_editTag hf hf',
      ht.content_eq hx hf hf' _ (eraseAll_reviseAll hx ha h h' d.root.content)]
  rw [Document.erase, Document.revise, hr]
  rfl

end

end ProcessForge.Xml
