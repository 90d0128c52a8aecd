import ProcessForge.Proofs.Xml.Stability

/-! One revision after another. Quiet edits leave labels and ids alone, and what they add gets no edits itself. So
    two revisions can be done in one pass, each element getting the edits of the first and then those of the
    second. A revision that is done twice changes nothing the second time, as soon as the edits of every
    element write the same content when they are done twice. -/

namespace ProcessForge.Xml

open List

variable {edit e : Edit} {es : List Edit} {top : Manual}

section

variable {quiet q : Label → Prop} {manual m manual' : Manual}

/-! ### What revisions keep -/

theorem QuietEdit.onTag_id (h : QuietEdit quiet e) (tag : Tag) : (e.onTag tag).get? "id" = tag.get? "id" := by
  cases h with
  | set v hn => rw [Edit.onTag, Tag.get?, value?_put, if_neg hn, Tag.get?]
  | setMissing v hn =>
    rw [Edit.onTag]
    split
    · rfl
    · rw [Tag.get?, value?_put, if_neg hn, Tag.get?]
  | setText | clear | append | ensure | ensureFirst | within => rfl

theorem editTag_id (h : ∀ e ∈ es, QuietEdit q e) : ∀ tag : Tag, (editTag es tag).get? "id" = tag.get? "id" := by
  induction es with
  | nil => exact fun _ => rfl
  | cons e tl ih =>
    intro tag
    exact (ih (fun e he => h e (mem_cons_of_mem _ he)) (e.onTag tag)).trans ((h e (mem_cons_self ..)).onTag_id tag)

theorem edits_editTag (h : ∀ e ∈ es, QuietEdit q e) (m : Manual) (tag : Tag) :
    m.edits (editTag es tag) = m.edits tag := by
  rw [Manual.edits, editTag_name, editTag_id h, Manual.edits]

theorem keepsKinds_revise (m : Manual) : KeepsKinds (Node.revise m) where
  text node h := by
    cases node with
    | text s => exact revise_leaf m rfl
    | element | comment | instruction => cases h
  isText node := by
    cases node with
    | element => simp [Node.isText]
    | text | comment | instruction => rw [revise_leaf m rfl]
  is node l := by
    cases node with
    | element tag ns => rw [revise_element, Node.is, Node.is, Tag.is, Tag.is, editTag_name]
    | text | comment | instruction => rw [revise_leaf m rfl]

/-! ### Edits of contents and maps of nodes -/

/-- A map of nodes that keeps kinds, and leaves elements with labels of a class as they are, except below them. -/
structure PassesThrough (quiet : Label → Prop) (f : Node → Node) : Prop extends KeepsKinds f where
  element : ∀ (tag : Tag) (inner : List Node), quiet tag.name.label →
    f (.element tag inner) = .element tag (inner.map f)

section

variable {f : Node → Node}

theorem draft_bareAll_eq_map (ds : List Draft) : Draft.bareAll ds = ds.map Draft.bare := by
  induction ds with
  | nil => rfl
  | cons d tl ih => rw [Draft.bareAll, map_cons, ih]

theorem QuietDraft.map_bare {d : Draft} (h : QuietDraft quiet d) (hf : PassesThrough quiet f) : f d.bare = d.bare := by
  induction h with
  | text s =>
    exact hf.text _ rfl
  | element hl _ _ ih =>
    rw [Draft.bare, hf.element _ _ (by rwa [foldl_put_name, label_bare]), draft_bareAll_eq_map, map_map]
    exact congrArg (Node.element _) (map_congr_left ih)

theorem editContent_map (h : ∀ e ∈ es, ∀ ns, (e.onContent ns).map f = e.onContent (ns.map f)) :
    ∀ ns : List Node, (editContent es ns).map f = editContent es (ns.map f) := by
  induction es with
  | nil => simp
  | cons e tl ih =>
    intro ns
    rw [editContent_cons, editContent_cons, ← h e (mem_cons_self ..)]
    exact ih (fun e he => h e (mem_cons_of_mem _ he)) _

theorem QuietEdit.onContent_map (h : QuietEdit quiet e) (hf : PassesThrough quiet f) :
    ∀ ns : List Node, (e.onContent ns).map f = e.onContent (ns.map f) := by
  have hk := hf.toKeepsKinds
  intro ns
  induction h generalizing ns with
  | set | setMissing =>
    rw [onContent_of_isOfTag rfl, onContent_of_isOfTag rfl]
  | setText s =>
    rw [Edit.onContent, Edit.onContent, hk.setLeadingText]
  | clear l =>
    rw [Edit.onContent, Edit.onContent, hk.removeNodes fun n => hk.is n l]
  | append hd =>
    rw [Edit.onContent, Edit.onContent, map_append, map_cons, map_nil, hd.map_bare hf]
  | ensure hd =>
    rw [Edit.onContent, Edit.onContent, hk.lacks]
    split
    · rw [map_append, map_cons, map_nil, hd.map_bare hf]
    · rfl
  | @ensureFirst draft hd =>
    rw [Edit.onContent, Edit.onContent, hk.lacks]
    split
    · rw [← KeepsKinds.insertBefore fun n => by rw [hk.isText], hd.map_bare hf]
    · rfl
  | @within l es hl _ ih =>
    rw [Edit.onContent, Edit.onContent]
    cases hs : splitAtChild? l ns with
    | none => rw [hk.splitAtChild?_none hs]
    | some fd =>
      obtain ⟨pre, tag, t, post⟩ := fd
      obtain ⟨-, rfl, -⟩ := splitAtChild?_eq_some hs
      rw [hk.splitAtChild?_some hs (hf.element tag t hl)]
      rw [map_append, map_cons, hf.element _ _ (by rwa [editTag_name]), editContent_map ih]

end

theorem passesThrough_revise (hn : m.Spares quiet) : PassesThrough quiet (Node.revise m) where
  toKeepsKinds := keepsKinds_revise m
  element tag t hl := by
    rw [revise_element, Manual.edits, hn _ _ hl, reviseAll_eq_map]
    rfl

theorem editContent_reviseAll (h : ∀ e ∈ es, QuietEdit q e) (hn : m.Spares q) (ns : List Node) :
    reviseAll m (editContent es ns) = editContent es (reviseAll m ns) := by
  rw [reviseAll_eq_map, reviseAll_eq_map]
  exact editContent_map (fun e he => (h e he).onContent_map (passesThrough_revise hn)) ns

/-! ### Two revisions in one -/

theorem reviseAll_of_empty (h : ∀ l id, m l id = []) : ∀ ns : List Node, reviseAll m ns = ns
  | [] => reviseAll_nil m
  | .element tag ns :: tl => by
    rw [reviseAll_cons, revise_element, Manual.edits, h, reviseAll_of_empty h ns, reviseAll_of_empty h tl]
    rfl
  | .text _ :: tl | .comment _ :: tl | .instruction _ _ :: tl => congrArg (_ :: ·) (reviseAll_of_empty h tl)

@[simp] theorem append_edits (m manual' : Manual) (tag : Tag) :
    (m.append manual').edits tag = m.edits tag ++ manual'.edits tag := rfl

theorem reviseAll_reviseAll (h : m.IsQuiet quiet) (h' : manual'.Spares quiet) : ∀ ns : List Node,
    reviseAll manual' (reviseAll m ns) = reviseAll (m.append manual') ns
  | [] => by simp
  | .element tag ns :: tl => by
    rw [reviseAll_cons, reviseAll_cons, reviseAll_cons, revise_element, revise_element, revise_element,
      edits_editTag (h.edits tag), editContent_reviseAll (h.edits tag) h', reviseAll_reviseAll h h' ns, append_edits,
      editTag_append, editContent_append, reviseAll_reviseAll h h' tl]
  | .text _ :: tl | .comment _ :: tl | .instruction _ _ :: tl => congrArg (_ :: ·) (reviseAll_reviseAll h h' tl)

theorem element_revise_revise {top' : Manual} (ht : top.IsQuiet quiet) (hb : m.IsQuiet quiet)
    (hb' : manual'.Spares quiet) (e : Element) :
    (e.revise top m).revise top' manual' = e.revise (top.append top') (m.append manual') := by
  rw [Element.revise, Element.revise, Element.revise, edits_editTag (ht.edits e.tag),
    editContent_reviseAll (ht.edits e.tag) hb',
    reviseAll_reviseAll hb hb', append_edits, editTag_append, editContent_append]

/-! ### The same revision twice -/

/-- The edits of every element write the same content when they are done twice. -/
def Manual.IsStable (manual : Manual) : Prop := ∀ label id content,
  editContent (manual label id) (editContent (manual label id) content) = editContent (manual label id) content

theorem Manual.IsQuiet.edit_twice (h : m.IsQuiet quiet) (hs : m.IsStable) (tag : Tag) (content : List Node) :
    editTag ((m.append m).edits tag) tag = editTag (m.edits tag) tag ∧
    editContent ((m.append m).edits tag) content = editContent (m.edits tag) content := by
  rw [append_edits, editTag_append, editContent_append]
  exact ⟨editTag_editTag (h.edits tag) tag, hs _ _ content⟩

theorem reviseAll_append_self (h : m.IsQuiet quiet) (hs : m.IsStable) :
    ∀ ns : List Node, reviseAll (m.append m) ns = reviseAll m ns
  | [] => by simp
  | .element tag ns :: tl => by
    obtain ⟨ht, hc⟩ := h.edit_twice hs tag (reviseAll m ns)
    rw [reviseAll_cons, reviseAll_cons, revise_element, revise_element, reviseAll_append_self h hs ns, ht, hc,
      reviseAll_append_self h hs tl]
  | .text _ :: tl | .comment _ :: tl | .instruction _ _ :: tl => congrArg (_ :: ·) (reviseAll_append_self h hs tl)

theorem element_revise_idempotent (ht : top.IsQuiet quiet) (hb : manual.IsQuiet quiet)
    (hs : manual.Spares quiet) (hst : top.IsStable) (hs' : manual.IsStable) (e : Element) :
    (e.revise top manual).revise top manual = e.revise top manual := by
  obtain ⟨hta, hc⟩ := ht.edit_twice hst e.tag (reviseAll manual e.content)
  rw [element_revise_revise ht hb hs, Element.revise, Element.revise, reviseAll_append_self hb hs', hta, hc]

/-! ### Labels and ids after a revision -/

/-- Labels and ids of all elements of a node meet a condition. -/
abbrev Node.Meets (P : Label → Option String → Prop) (node : Node) : Prop :=
  node.All fun tag => P tag.name.label (tag.get? "id")

variable {P : Label → Option String → Prop}

theorem meets_element {tag : Tag} {ns : List Node} : (Node.element tag ns).Meets P ↔
    P tag.name.label (tag.get? "id") ∧ ∀ n ∈ ns, n.Meets P := all_element

theorem QuietDraft.meets {d : Draft} (h : QuietDraft q d) (hP : ∀ l id, q l → P l id) : d.bare.Meets P := by
  induction h with
  | text s =>
    exact all_leaf rfl
  | element hl _ _ ih =>
    rw [Draft.bare, meets_element, foldl_put_name, label_bare, draft_bareAll_eq_map]
    refine ⟨hP _ _ hl, fun n hn => ?_⟩
    obtain ⟨d, hd, rfl⟩ := mem_map.mp hn
    exact ih d hd

theorem editContent_meets (h : ∀ e ∈ es, ∀ ns : List Node, (∀ n ∈ ns, n.Meets P) → ∀ n ∈ e.onContent ns, n.Meets P) :
    ∀ ns : List Node, (∀ n ∈ ns, n.Meets P) → ∀ n ∈ editContent es ns, n.Meets P := by
  induction es with
  | nil => simp
  | cons e tl ih =>
    intro ns hc
    exact ih (fun e he => h e (mem_cons_of_mem _ he)) _ (h e (mem_cons_self ..) ns hc)

theorem QuietEdit.onContent_meets (h : QuietEdit q e) (hP : ∀ l id, q l → P l id) :
    ∀ ns : List Node, (∀ n ∈ ns, n.Meets P) → ∀ n ∈ e.onContent ns, n.Meets P := by
  intro ns hc n hn
  induction h generalizing ns n with
  | set | setMissing =>
    exact hc n hn
  | setText s =>
    rcases mem_cons.mp hn with rfl | hn
    · exact all_leaf rfl
    · exact hc n ((dropWhile_sublist _).subset hn)
  | clear l =>
    exact hc n ((removeNodes_sublist _ ns false).subset hn)
  | append hd =>
    rcases mem_append.mp hn with hn | hn
    · exact hc n hn
    · exact mem_singleton.mp hn ▸ hd.meets hP
  | ensure hd =>
    rw [Edit.onContent] at hn
    split at hn
    · rcases mem_append.mp hn with hn | hn
      · exact hc n hn
      · exact mem_singleton.mp hn ▸ hd.meets hP
    · exact hc n hn
  | ensureFirst hd =>
    rw [Edit.onContent] at hn
    split at hn
    · rcases mem_insertBefore hn with rfl | hn
      · exact hd.meets hP
      · exact hc n hn
    · exact hc n hn
  | @within l es hl _ ih =>
    rw [Edit.onContent] at hn
    split at hn
    · exact hc n hn
    · next pre tag t post hs =>
      obtain ⟨rfl, rfl, -⟩ := splitAtChild?_eq_some hs
      have hch := meets_element.mp (hc (.element tag t) (by simp))
      rcases mem_append.mp hn with hn | hn
      · exact hc n (by simp [hn])
      · rcases mem_cons.mp hn with rfl | hn
        · rw [meets_element, editTag_name]
          exact ⟨hP _ _ hl, editContent_meets ih t hch.2⟩
        · exact hc n (by simp [hn])

/-- After a revision the elements have the labels and ids that they had, or they are quiet. -/
theorem reviseAll_meets (h : m.IsQuiet q) (hP : ∀ l id, q l → P l id) : ∀ ns : List Node, (∀ node ∈ ns, node.Meets P) →
    ∀ node ∈ reviseAll m ns, node.Meets P
  | [], _ => by simp
  | .element tag ns :: tl, hc => by
    rw [forall_mem_cons] at hc
    obtain ⟨ht, hin⟩ := meets_element.mp hc.1
    rw [reviseAll_cons, forall_mem_cons, revise_element, meets_element, editTag_name, editTag_id (h.edits tag)]
    refine ⟨⟨ht, editContent_meets (fun e he => (h.edits tag e he).onContent_meets hP) _ ?_⟩,
      reviseAll_meets h hP tl hc.2⟩
    exact reviseAll_meets h hP ns hin
  | .text _ :: tl, hc | .comment _ :: tl, hc | .instruction _ _ :: tl, hc => by
    rw [forall_mem_cons] at hc
    rw [reviseAll_cons, forall_mem_cons, revise_leaf _ rfl]
    exact ⟨hc.1, reviseAll_meets h hP tl hc.2⟩

theorem element_revise_meets (ht : top.IsQuiet q) (h : m.IsQuiet q)
    (hP : ∀ l id, q l → P l id) {e : Element} (he : e.node.Meets P) : (e.revise top m).node.Meets P := by
  obtain ⟨hta, hc⟩ := meets_element.mp he
  rw [Element.revise, Element.node, meets_element, editTag_name, editTag_id (ht.edits e.tag)]
  refine ⟨hta, editContent_meets (fun edit hed => (ht.edits e.tag edit hed).onContent_meets hP) _ ?_⟩
  exact reviseAll_meets h hP e.content hc

theorem meets_bare (n : Node) : n.bare.Meets P ↔ n.Meets P := by
  rw [Node.Meets, all_bare]
  simp [bare_get?]

end

end ProcessForge.Xml
