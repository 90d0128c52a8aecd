import ProcessForge.Proofs.Xml.Bare

/-! Revisions of bare trees. What an edit does to a bare tree depends neither on the surroundings of the element nor
    on short forms that are made up, and it splits into what it does to the tag and what it does to the
    content. A manual says which edits the elements of a tree get, by their labels and ids, and a round of jobs
    that follows a manual is a revision of the bare tree. -/

namespace ProcessForge.Xml

open List

variable {edit e : Edit} {c : List Node}

/-! ### Quiet edits -/

section

variable (quiet q : Label → Prop)

/-- All elements of a draft have labels of a class, and all values are given. -/
inductive QuietDraft : Draft → Prop
  | text (s : String) : QuietDraft (.text s)
  | element {label : Label} {attributes : List (Label × DraftValue)} {content : List Draft} :
      quiet label → (∀ a ∈ attributes, ∃ s, a.2 = .text s) → (∀ draft ∈ content, QuietDraft draft) →
      QuietDraft (.element label attributes content)

/-- An edit that leaves the id of the element alone, and adds and changes only children with labels of a
    class. -/
inductive QuietEdit : Edit → Prop
  | set {label : Label} (value : String) : label ≠ .plain "id" → QuietEdit (.set label value)
  | setMissing {label : Label} (value : String) : label ≠ .plain "id" → QuietEdit (.setMissing label value)
  | setText (s : String) : QuietEdit (.setText s)
  | clear (label : Label) : QuietEdit (.clear label)
  | append {draft : Draft} : QuietDraft quiet draft → QuietEdit (.append draft)
  | ensure {draft : Draft} : QuietDraft quiet draft → QuietEdit (.ensure draft)
  | ensureFirst {draft : Draft} : QuietDraft quiet draft → QuietEdit (.ensureFirst draft)
  | within {label : Label} {edits : List Edit} : quiet label → (∀ edit ∈ edits, QuietEdit edit) →
      QuietEdit (.within label edits)

end

/-! ### Bare edits -/

def Tag.put (tag : Tag) (label : Label) (value : String) : Tag :=
  { tag with attributes := putAttribute label.bare value tag.attributes }

/-- A value as a bare tag shows it. Ids that are made up are not shown. -/
def DraftValue.shown : DraftValue → String
  | text s => s
  | newId => ""

mutual

def Draft.bare : Draft → Node
  | .text s => .text s
  | .element label attributes content =>
    .element (attributes.foldl (fun tag a => tag.put a.1 a.2.shown) { name := label.bare }) (Draft.bareAll content)

def Draft.bareAll : List Draft → List Node
  | [] => []
  | draft :: rest => draft.bare :: Draft.bareAll rest

end

def Edit.onTag : Edit → Tag → Tag
  | .set label value, tag => tag.put label value
  | .setMissing label value, tag => if (tag.value? label).isSome then tag else tag.put label value
  | .drop stem, tag => tag.drop stem
  | _, tag => tag

def editTag (edits : List Edit) (tag : Tag) : Tag := edits.foldl (fun tag edit => edit.onTag tag) tag

mutual

/-- What an edit does to a bare content. Copies of foreign elements are left out. -/
def Edit.onContent : Edit → List Node → List Node
  | .setText s, content => setLeadingText s content
  | .clear label, content => removeNodes (Node.is label) false content
  | .clearAll, content => removeNodes (fun _ => true) false content
  | .append draft, content => content ++ [draft.bare]
  | .ensure draft, content => if lacks content draft then content ++ [draft.bare] else content
  | .ensureFirst draft, content =>
    if lacks content draft then insertBefore (fun node => !node.isText) draft.bare content else content
  | .place draft anchors, content => placeNode anchors draft.bare content
  | .within label edits, content =>
    match splitAtChild? label content with
    | none => content
    | some (before, tag, inner, after) =>
      before ++ .element (editTag edits tag) (editContent edits inner) :: after
  | _, content => content

def editContent : List Edit → List Node → List Node
  | [], content => content
  | edit :: rest, content => editContent rest (edit.onContent content)

end

@[simp] theorem editContent_nil (content : List Node) : editContent [] content = content := by
  rw [editContent]

@[simp] theorem editContent_cons (e : Edit) (tl : List Edit) (c : List Node) :
    editContent (e :: tl) c = editContent tl (e.onContent c) := by
  rw [editContent]

theorem editContent_append (es ms : List Edit) : ∀ c : List Node,
    editContent (es ++ ms) c = editContent ms (editContent es c) := by
  induction es with
  | nil => simp
  | cons e tl ih => simpa using fun c => ih (e.onContent c)

theorem editTag_append (es ms : List Edit) (tag : Tag) :
    editTag (es ++ ms) tag = editTag ms (editTag es tag) := foldl_append

theorem onTag_of_not_isOfTag (h : e.isOfTag = false) (tag : Tag) : e.onTag tag = tag := by
  cases e with
  | set | setMissing | drop => cases h
  | setText | clear | clearAll | append | ensure | ensureFirst | place | graft | within => rfl

theorem onContent_of_isOfTag (h : e.isOfTag) (content : List Node) : e.onContent content = content := by
  cases e with
  | set | setMissing | drop => simp [Edit.onContent]
  | setText | clear | clearAll | append | ensure | ensureFirst | place | graft | within => cases h

theorem editTag_filter (es : List Edit) : ∀ tag : Tag, editTag (es.filter Edit.isOfTag) tag = editTag es tag := by
  induction es with
  | nil => exact fun _ => rfl
  | cons e tl ih =>
    intro tag
    cases h : e.isOfTag with
    | true =>
      rw [filter_cons_of_pos h]
      exact ih (e.onTag tag)
    | false =>
      rw [filter_cons_of_neg (by simp [h]), ih]
      exact congrArg (editTag tl) (onTag_of_not_isOfTag h tag).symm

theorem editTag_filter_not (es : List Edit) (tag : Tag) : editTag (es.filter fun e => !e.isOfTag) tag = tag := by
  rw [← editTag_filter]
  simp [editTag]

theorem editContent_filter_not (es : List Edit) : ∀ content : List Node,
    editContent (es.filter fun e => !e.isOfTag) content = editContent es content := by
  induction es with
  | nil => simp
  | cons e tl ih =>
    intro content
    cases h : e.isOfTag with
    | true =>
      rw [filter_cons_of_neg (by simp [h]), ih, editContent_cons, onContent_of_isOfTag h]
    | false => rw [filter_cons_of_pos (by simp [h]), editContent_cons, editContent_cons, ih]

/-! ### Edits show what bare edits do -/

section

variable {quiet q : Label → Prop}

variable {label l : Label} {ds : List Draft} {d : Draft} {tag : Tag}

theorem map_putAttribute {name : Name} (h : name.label = l) (v : String) (ats : List Attribute) :
    (putAttribute name v ats).map (fun a => Attribute.mk a.name.label.bare a.value)
      = putAttribute l.bare v (ats.map fun a => ⟨a.name.label.bare, a.value⟩) := by
  induction ats with
  | nil => simp [putAttribute, h]
  | cons a tl ih =>
    rw [putAttribute, map_cons, putAttribute, label_bare, label_bare, h]
    split
    · simp [h]
    · simp [ih]

theorem writeAttribute_bare (o : Scope) (tag : Tag) (l : Label) (value : String) :
    Gives (writeAttribute o tag l value) fun tag' => tag'.bare = tag.bare.put l value := by
  refine (writeAttribute_put o tag l value).mono fun tag' h => ?_
  obtain ⟨hn, name, hl, ha⟩ := h
  rw [Tag.bare, hn, ha, map_putAttribute hl]
  rfl

theorem writeValues_bare (o : Scope) : ∀ {ats : List (Label × DraftValue)} (tag : Tag),
    (∀ a ∈ ats, ∃ s, a.2 = .text s) →
    Gives (ats.foldlM (Draft.writeValue o) tag) fun tag' =>
      tag'.bare = ats.foldl (fun tag a => tag.put a.1 a.2.shown) tag.bare
  | [], tag, _ => Gives.pure rfl
  | (l, v) :: tl, tag, h => by
    obtain ⟨s, hs⟩ := h _ (mem_cons_self ..)
    subst hs
    refine Gives.bind (writeAttribute_bare o tag l s) fun tag₁ ht₁ => ?_
    refine (writeValues_bare o tag₁ fun a ha => h a (mem_cons_of_mem _ ha)).mono fun tag₂ ht₂ => ?_
    rw [ht₂, ht₁]
    rfl

theorem openTag_bare (search : Scope) (l : Label) :
    Gives (Draft.openTag search l) fun tag => tag.bare = { name := l.bare } := by
  refine (openTag_opens l search).mono fun tag h => ?_
  rw [Tag.bare, h.1, h.2]
  rfl

theorem settleAll_bare (h : ∀ d ∈ drafts, ∀ o, Gives (d.settle o) fun n => n.bare = d.bare) (o : Scope) :
    Gives (Draft.settleAll o drafts) fun ns => bareAll ns = Draft.bareAll drafts := by
  induction drafts with
  | nil =>
    exact Gives.pure rfl
  | cons d tl ih =>
    refine (h d (mem_cons_self ..) o).bind fun n hno => ?_
    refine (ih fun d hd => h d (mem_cons_of_mem _ hd)).bind fun ns hn => ?_
    refine Gives.pure ?_
    rw [bareAll_cons, hno, hn, Draft.bareAll]

theorem build_bare (search o : Scope) {ats : List (Label × DraftValue)} (hv : ∀ a ∈ ats, ∃ s, a.2 = .text s)
    (hd : ∀ d ∈ ds, ∀ o, Gives (d.settle o) fun n => n.bare = d.bare) :
    Gives (Draft.build search o l ats ds) fun n => n.bare = (Draft.element l ats ds).bare := by
  refine (openTag_bare search l).bind fun tag ht => ?_
  refine (writeValues_bare o tag hv).bind fun tag' ht' => ?_
  refine (settleAll_bare hd _).bind fun c hc => Gives.pure ?_
  rw [bare_element, ht', ht, hc, Draft.bare]

theorem QuietDraft.settle_bare (h : QuietDraft quiet d) : ∀ o : Scope, Gives (d.settle o) fun n => n.bare = d.bare := by
  induction h with
  | text s =>
    intro o
    refine Gives.pure ?_
    rw [bare_leaf rfl, Draft.bare]
  | element _ hv _ ih =>
    intro o
    exact build_bare _ o hv ih

theorem QuietDraft.settleFirst_bare (h : QuietDraft quiet d) (sc : Scope) :
    Gives (d.settleFirst sc) fun n => n.bare = d.bare := by
  cases h with
  | text s =>
    refine Gives.pure ?_
    rw [bare_leaf rfl, Draft.bare]
  | element _ hv hc =>
    exact build_bare sc sc hv fun d hd => (hc d hd).settle_bare

/-- The changed element shows what bare edits make of what the element showed. -/
def ShowsEdits (edits : List Edit) (tag : Tag) (content : List Node) (r : Tag × List Node) : Prop :=
  r.1.bare = editTag edits tag.bare ∧ bareAll r.2 = editContent edits (bareAll content)

theorem applyEdits_bare {es : List Edit} (h : ∀ e ∈ es, ∀ o tag c,
    Gives (Edit.apply o tag c e) (ShowsEdits [e] tag c)) :
    ∀ (o : Scope) (tag : Tag) (c : List Node),
    Gives (applyEdits o tag c es) (ShowsEdits es tag c) := by
  induction es with
  | nil =>
    intro o tag c
    exact Gives.pure ⟨rfl, by simp⟩
  | cons e tl ih =>
    intro o tag c
    refine (h e (mem_cons_self ..) o tag c).bind fun r₁ h₁ => ?_
    refine (ih (fun e he => h e (mem_cons_of_mem _ he)) o r₁.1 r₁.2).mono fun r₂ h₂ => ?_
    rw [ShowsEdits, ← singleton_append, editTag_append, editContent_append, ← h₁.1, ← h₁.2]
    exact h₂

theorem showsEdits_content (h : e.isOfTag = false) {ns' : List Node}
    (hc : bareAll ns' = e.onContent (bareAll c)) : ShowsEdits [e] tag c (tag, ns') :=
  ⟨(onTag_of_not_isOfTag h _).symm, by rw [editContent_cons, editContent_nil, hc]⟩

theorem showsEdits_tag (h : e.isOfTag) {tag' : Tag} (ht : tag'.bare = e.onTag tag.bare) :
    ShowsEdits [e] tag c (tag', c) :=
  ⟨ht, by rw [editContent_cons, editContent_nil, onContent_of_isOfTag h]⟩

/-- What a quiet edit shows depends on what the element showed only. -/
theorem set_apply_bare (l : Label) (v : String) (o : Scope) (tag : Tag) (c : List Node) :
    Gives (Edit.apply o tag c (.set l v)) (ShowsEdits [.set l v] tag c) := by
  rw [Edit.apply]
  refine (writeAttribute_bare o tag l v).bind fun tag' ht' => Gives.pure ?_
  exact showsEdits_tag rfl ht'

theorem QuietEdit.apply_bare (h : QuietEdit quiet e) : ∀ (o : Scope) (tag : Tag) (c : List Node),
    Gives (Edit.apply o tag c e) (ShowsEdits [e] tag c) := by
  intro o tag c
  induction h generalizing o tag c with rw [Edit.apply]
  | set v _ => exact set_apply_bare _ v o tag c
  | @setMissing l v _ =>
    split
    · next hv =>
      refine Gives.pure (showsEdits_tag rfl ?_)
      rw [Edit.onTag, bare_value?, if_pos hv]
    · next hv =>
      refine (writeAttribute_bare o tag l v).bind fun tag' ht' => Gives.pure ?_
      refine showsEdits_tag rfl ?_
      rw [Edit.onTag, bare_value?, if_neg hv, ht']
  | setText s =>
    refine Gives.pure (showsEdits_content rfl ?_)
    rw [Edit.onContent, bareAll_eq_map, bareAll_eq_map, keepsKinds_bare.setLeadingText]
  | clear l =>
    refine Gives.pure (showsEdits_content rfl ?_)
    rw [Edit.onContent, bareAll_eq_map, bareAll_eq_map, keepsKinds_bare.removeNodes fun n => is_bare n l]
  | append hd =>
    refine (hd.settle_bare _).bind fun n hn => Gives.pure (showsEdits_content rfl ?_)
    rw [Edit.onContent, bareAll_append, bareAll_cons, bareAll_nil, hn]
  | @ensure draft hd =>
    split
    · next hl =>
      refine (hd.settle_bare _).bind fun n hn => Gives.pure (showsEdits_content rfl ?_)
      rw [Edit.onContent, bareAll_append, bareAll_cons, bareAll_nil, hn, bareAll_eq_map,
        keepsKinds_bare.lacks, if_pos hl]
    · next hl =>
      refine Gives.pure (showsEdits_content rfl ?_)
      rw [Edit.onContent, bareAll_eq_map, keepsKinds_bare.lacks, if_neg hl]
  | @ensureFirst draft hd =>
    split
    · next hl =>
      refine (hd.settleFirst_bare _).bind fun n hn => Gives.pure (showsEdits_content rfl ?_)
      rw [Edit.onContent, bareAll_eq_map, bareAll_eq_map, keepsKinds_bare.lacks, if_pos hl, ← hn,
        KeepsKinds.insertBefore fun n => by simp]
    · next hl =>
      refine Gives.pure (showsEdits_content rfl ?_)
      rw [Edit.onContent, bareAll_eq_map, keepsKinds_bare.lacks, if_neg hl]
  | @within l edits _ _ ih =>
    split
    · next hs =>
      refine Gives.pure (showsEdits_content rfl ?_)
      rw [Edit.onContent, bareAll_eq_map, keepsKinds_bare.splitAtChild?_none hs]
    · next pre childTag t post hs =>
      refine (applyEdits_bare ih _ childTag t).bind fun r hr => Gives.pure (showsEdits_content rfl ?_)
      rw [Edit.onContent, bareAll_append, bareAll_cons, bare_element, hr.1, hr.2, bareAll_eq_map c,
        keepsKinds_bare.splitAtChild?_some hs (bare_element childTag t)]
      simp [bareAll_eq_map]

end

/-! ### Manuals -/

/-- The edits that elements get, by label and id. -/
abbrev Manual := Label → Option String → List Edit

def Manual.edits (manual : Manual) (tag : Tag) : List Edit := manual tag.name.label (tag.get? "id")

/-- Edits of one manual and then those of another. -/
def Manual.append (manual manual' : Manual) : Manual := fun label id => manual label id ++ manual' label id

mutual

def Node.revise (manual : Manual) : Node → Node
  | .element tag content =>
    .element (editTag (manual.edits tag) tag) (editContent (manual.edits tag) (reviseAll manual content))
  | node => node

def reviseAll (manual : Manual) : List Node → List Node
  | [] => []
  | node :: rest => node.revise manual :: reviseAll manual rest

end

/-- An element revised by a manual for itself and one for the elements below. -/
def Element.revise (top below : Manual) (e : Element) : Element :=
  ⟨editTag (top.edits e.tag) e.tag, editContent (top.edits e.tag) (reviseAll below e.content)⟩

/-- A document revised by a manual for its root and one for the elements below. -/
def Document.revise (top below : Manual) (d : Document) : Document := { d with root := d.root.revise top below }

section

variable (m : Manual)

@[simp] theorem revise_element (tag : Tag) (c : List Node) : (Node.element tag c).revise m
    = .element (editTag (m.edits tag) tag) (editContent (m.edits tag) (reviseAll m c)) := by
  rw [Node.revise]

theorem revise_leaf {node : Node} (h : node.element? = none) : node.revise m = node := by
  cases node with
  | element tag c => cases h
  | text | comment | instruction => simp [Node.revise]

@[simp] theorem reviseAll_nil : reviseAll m [] = [] := by rw [reviseAll]

@[simp] theorem reviseAll_cons (n : Node) (rest : List Node) :
    reviseAll m (n :: rest) = n.revise m :: reviseAll m rest := by rw [reviseAll]

theorem reviseAll_eq_map (c : List Node) : reviseAll m c = c.map (Node.revise m) := by
  induction c with
  | nil => simp
  | cons n tl ih => simp [ih]

theorem bare_edits (tag : Tag) : m.edits tag.bare = m.edits tag := by
  rw [Manual.edits, Manual.edits, bare_label, bare_get?]

theorem bareAll_of_forall₂ {ns' : List Node} (h : Forall₂ (fun n n' => n'.bare = n.bare.revise m) c ns') :
    bareAll ns' = reviseAll m (bareAll c) := by
  induction h with
  | nil => simp
  | cons hn _ ih => simp [hn, ih]

end

def Manual.IsQuiet (quiet : Label → Prop) (manual : Manual) : Prop :=
  ∀ label id, ∀ edit ∈ manual label id, QuietEdit quiet edit

def Manual.Spares (quiet : Label → Prop) (manual : Manual) : Prop := ∀ label id, quiet label → manual label id = []

theorem Manual.IsQuiet.edits {q : Label → Prop} {m : Manual} (h : m.IsQuiet q) (tag : Tag) :
    ∀ edit ∈ m.edits tag, QuietEdit q edit := h _ _

section

variable {quiet q : Label → Prop} {top below : Manual}

theorem applyEdits_tag_bare {m : Manual} (h : m.IsQuiet quiet) (o : Scope) (tag : Tag) :
    Gives (applyEdits o tag [] ((m.edits tag).filter Edit.isOfTag)) fun r =>
      r.1.bare = editTag (m.edits tag) tag.bare := by
  refine (applyEdits_bare (fun e he => ?_) o tag []).mono fun r hr => ?_
  · exact (h.edits tag e (mem_filter.mp he).1).apply_bare
  · rw [hr.1, editTag_filter]

theorem applyEdits_content_bare {es : List Edit} (h : ∀ e ∈ es, QuietEdit q e) (o : Scope)
    (tag : Tag) (c : List Node) : Gives (applyEdits o tag c (es.filter fun e => !e.isOfTag)) fun r =>
      r.1.bare = tag.bare ∧ bareAll r.2 = editContent es (bareAll c) := by
  refine (applyEdits_bare (fun e he => ?_) o tag c).mono fun r hr => ?_
  · exact (h e (mem_filter.mp he).1).apply_bare
  · exact ⟨by rw [hr.1, editTag_filter_not], by rw [hr.2, editContent_filter_not]⟩

theorem perform_bare (ht : top.IsQuiet quiet) (hb : below.IsQuiet quiet) {e : Element} {js : List Job}
    (ho : ownEdits js = top.edits e.tag)
    (hf : FitsFrom (fun e own => own = below.edits e.tag) js 0 e.content) (o : Scope) :
    Gives (e.node.perform o js) fun n => n.bare = (e.bare.revise top below).node := by
  rw [Element.node, perform_element, ho]
  refine (applyEdits_tag_bare ht o e.tag).bind fun r hr => ?_
  refine Gives.bind (P := fun c => bareAll c = reviseAll below (bareAll e.content)) ?_ fun c hc => ?_
  · refine (FitsFrom.perform (R := fun n n' => n'.bare = n.bare.revise below)
      (T := fun e own tag => tag.bare = editTag own e.tag.bare) ?_ ?_ ?_ e.content _ js 0
      hf).mono fun c hc => bareAll_of_forall₂ below hc
    · intro n hl
      rw [bare_leaf hl, revise_leaf _ hl]
    · rintro o e own rfl
      exact applyEdits_tag_bare hb o e.tag
    · rintro o e own tag c rfl hta hc
      refine (applyEdits_content_bare (hb.edits e.tag) o tag c).mono fun r hr => ?_
      rw [bare_element, Element.node, bare_element, revise_element, hr.1, hr.2, hta,
        bareAll_of_forall₂ below hc, bare_edits]
  · refine (applyEdits_content_bare (ht.edits e.tag) o r.1 c).bind fun r' hr' => Gives.pure ?_
    rw [bare_element, Element.revise, Element.bare, Element.node, hr'.1, hr'.2, hr, hc, bare_edits]

theorem document_perform_bare (ht : top.IsQuiet quiet) (hb : below.IsQuiet quiet) {d : Document}
    {js : List Job} (ho : ownEdits js = top.edits d.root.tag)
    (hfi : FitsFrom (fun e own => own = below.edits e.tag) js 0 d.root.content) (nextId : Nat) :
    (d.perform nextId js).1.bare = d.bare.revise top below := by
  have hr := root_of_perform (perform_bare ht hb ho hfi []) nextId
  rw [bare_node] at hr
  have hf : (d.perform nextId js).1.bare = { d with root := (d.perform nextId js).1.root.bare, coined := 0 } := by
    rw [Document.perform]
    rcases Id.run (StateT.run (d.root.node.perform [] js) ⟨nextId, d.coined⟩) with ⟨n, supply⟩
    dsimp only
    cases n.element? with
    | some root => rfl
    | none => rfl
  rw [hf, node_injective hr]
  rfl

end

end ProcessForge.Xml
