import Mathlib.Data.List.DropRight
import ProcessForge.Proofs.Xml.Revision

/-! Edits that are done twice. Attributes that are written a second time keep their values and their order. A child
    that is provided and then changed is the same when it is provided and changed once more, as soon as the
    changes of its own content are. -/

namespace ProcessForge.Xml

open List Option

variable {tag : Tag} {edits es : List Edit}

section

variable {quiet q : Label → Prop}

/-! ### Writing attributes twice -/

theorem value?_put (tag : Tag) (label : Label) (v : String) (l : Label) :
    (tag.put label v).value? l = if label = l then some v else tag.value? l := by
  have hp := find?_putAttribute label.bare v l tag.attributes
  rwa [label_bare] at hp

theorem putAttribute_putAttribute {name name' : Name} (h : name.label = name'.label) (v value' : String)
    (attributes : List Attribute) :
    putAttribute name' value' (putAttribute name v attributes) = putAttribute name' value' attributes := by
  induction attributes with
  | nil => simp [putAttribute, h]
  | cons a tl ih =>
    by_cases ha : a.name.label = name'.label
    · simp [putAttribute, h, ha]
    · simp [putAttribute, h, ha, ih]

/-- An attribute that is there keeps its place, whatever is written before. -/
theorem putAttribute_comm {name name' : Name} (h : name.label ≠ name'.label) (v value' : String) :
    ∀ {as : List Attribute},
    (as.find? fun a => a.name.label == name'.label).isSome →
    putAttribute name' value' (putAttribute name v as) = putAttribute name v (putAttribute name' value' as)
  | [], hf => by cases hf
  | a :: tl, hf => by
    by_cases ha' : a.name.label = name'.label
    · simp [putAttribute, ha', Ne.symm h]
    · have hr : (tl.find? fun a => a.name.label == name'.label).isSome := by
        simpa [ha'] using hf
      by_cases ha : a.name.label = name.label
      · simp [putAttribute, ha, h]
      · simp [putAttribute, ha, ha', putAttribute_comm h v value' hr]

theorem put_put (tag : Tag) (l : Label) (v value' : String) : (tag.put l v).put l value' = tag.put l value' := by
  simp [Tag.put, putAttribute_putAttribute rfl]

theorem put_comm {l l' : Label} (h : l ≠ l') (hv : (tag.value? l').isSome)
    (value value' : String) : (tag.put l value).put l' value' = (tag.put l' value').put l value := by
  rw [Tag.value?] at hv
  simp only [Tag.put]
  rw [putAttribute_comm (by simpa using h) value value' (by simpa using hv)]

def Edit.written? : Edit → Option Label
  | .set label _ | .setMissing label _ => some label
  | _ => none

/-- A tag has all attributes that edits write. -/
def HasWritten (edits : List Edit) (tag : Tag) : Prop :=
  ∀ edit ∈ edits, ∀ label ∈ edit.written?, (tag.value? label).isSome = true

theorem QuietEdit.isSome_onTag {e : Edit} (h : QuietEdit quiet e) {l : Label}
    (hl : (tag.value? l).isSome ∨ l ∈ e.written?) : ((e.onTag tag).value? l).isSome := by
  cases h with
  | set v _ =>
    rw [Edit.onTag, value?_put]
    split
    · rfl
    · next hn => exact hl.resolve_right fun hm => hn (mem_some.mp hm)
  | @setMissing label v _ =>
    rw [Edit.onTag]
    split
    · next hv => exact hl.elim id fun hm => mem_some.mp hm ▸ hv
    · rw [value?_put]
      split
      · rfl
      · next hn => exact hl.resolve_right fun hm => hn (mem_some.mp hm)
  | setText | clear | append | ensure | ensureFirst | within => exact hl.resolve_right (not_mem_none l)

theorem isSome_editTag (h : ∀ e ∈ es, QuietEdit q e) {l : Label} :
    ∀ {tag : Tag}, (tag.value? l).isSome → ((editTag es tag).value? l).isSome := by
  induction es with
  | nil => exact id
  | cons e tl ih =>
    intro tag hl
    exact ih (fun e he => h e (mem_cons_of_mem _ he)) ((h e (mem_cons_self ..)).isSome_onTag (Or.inl hl))

theorem hasWritten_editTag (h : ∀ edit ∈ es, QuietEdit q edit) : ∀ tag : Tag, HasWritten es (editTag es tag) := by
  induction es with
  | nil => exact fun _ => nofun
  | cons edit tl ih =>
    intro tag b ho l hl
    have hr : ∀ edit ∈ tl, QuietEdit q edit := fun edit he => h edit (mem_cons_of_mem _ he)
    rcases mem_cons.mp ho with rfl | ho
    · exact isSome_editTag hr ((h b (mem_cons_self ..)).isSome_onTag (Or.inr hl))
    · exact ih hr (edit.onTag tag) b ho l hl

/-- If everything that is written is there already, an attribute that was put in before is written over, or it
    might as well be put in behind. -/
theorem editTag_put (h : ∀ edit ∈ es, QuietEdit q edit) (label : Label) (value : String) :
    ∀ {tag : Tag}, HasWritten es tag → editTag es (tag.put label value) = editTag es tag ∨
      editTag es (tag.put label value) = (editTag es tag).put label value := by
  induction es with
  | nil => exact fun _ => Or.inr rfl
  | cons edit tl ih =>
    intro tag ha
    have hr : ∀ edit ∈ tl, QuietEdit q edit := fun edit he => h edit (mem_cons_of_mem _ he)
    have he := h edit (mem_cons_self ..)
    have hn : HasWritten tl (edit.onTag tag) := fun b ho l hl =>
      he.isSome_onTag (Or.inl (ha b (mem_cons_of_mem _ ho) l hl))
    have hp : ∀ l ∈ edit.written?, ((tag.put label value).value? l).isSome := by
      intro l hl
      rw [value?_put]
      split
      · rfl
      · exact ha edit (mem_cons_self ..) l hl
    change editTag tl (edit.onTag (tag.put label value)) = editTag tl (edit.onTag tag) ∨
      editTag tl (edit.onTag (tag.put label value)) = (editTag tl (edit.onTag tag)).put label value
    cases he with
    | @set l' value' _ =>
      by_cases hla : label = l'
      · subst hla
        exact Or.inl (congrArg (editTag tl) (put_put tag label value value'))
      · simp only [Edit.onTag] at hn ⊢
        rw [put_comm hla (ha _ (mem_cons_self ..) l' rfl)]
        exact ih hr hn
    | @setMissing l' value' _ =>
      have ht : Edit.onTag (.setMissing l' value') tag = tag := by
        rw [Edit.onTag, if_pos (ha _ (mem_cons_self ..) l' rfl)]
      rw [ht] at hn ⊢
      rw [Edit.onTag, if_pos (hp l' rfl)]
      exact ih hr hn
    | setText | clear | append | ensure | ensureFirst | within => exact ih hr hn

/-- Attributes that are written twice are as if they were written once, and they keep their order. -/
theorem editTag_editTag (h : ∀ edit ∈ es, QuietEdit q edit) (tag : Tag) :
    editTag es (editTag es tag) = editTag es tag := by
  -- the last edit is taken off, since the edits before it have written all of their as
  induction es using reverseRecOn with
  | nil => rfl
  | append_singleton es edit ih =>
    have he : ∀ edit ∈ es, QuietEdit q edit := fun b ho => h b (by simp [ho])
    replace ih := ih he
    rw [editTag_append, editTag_append]
    generalize hd : editTag es tag = done at ih
    have ha : HasWritten es done := hd ▸ hasWritten_editTag he tag
    have hed := h edit (by simp)
    change edit.onTag (editTag es (edit.onTag done)) = edit.onTag done
    cases hed with
    | @set l v _ =>
      simp only [Edit.onTag]
      rcases editTag_put he l v ha with heq | heq
      · rw [heq, ih]
      · rw [heq, ih, put_put]
    | @setMissing l v _ =>
      by_cases hv : (done.value? l).isSome
      · simp [Edit.onTag, if_pos hv, ih]
      · have hp : ((done.put l v).value? l).isSome := by
          rw [value?_put, if_pos rfl]
          rfl
        simp only [Edit.onTag, if_neg hv, if_pos (isSome_editTag he hp)]
        rcases editTag_put he l v ha with heq | heq
        · have hs := isSome_editTag he hp
          rw [heq, ih] at hs
          exact absurd hs hv
        · rw [heq, ih]
    | setText | clear | append | ensure | ensureFirst | within => exact ih

end

/-! ### Changing a child twice -/

theorem onTag_name (e : Edit) (tag : Tag) : (e.onTag tag).name = tag.name := by
  cases e with
  | setMissing l v =>
    rw [Edit.onTag]
    split
    · rfl
    · rfl
  | set | drop | setText | clear | clearAll | append | ensure | ensureFirst | place | graft | within => rfl

theorem editTag_name (es : List Edit) : ∀ tag : Tag, (editTag es tag).name = tag.name := by
  induction es with
  | nil => exact fun _ => rfl
  | cons e tl ih => exact fun tag => (ih (e.onTag tag)).trans (onTag_name e tag)

theorem foldl_put_name (as : List (Label × DraftValue)) : ∀ tag : Tag,
    (as.foldl (fun tag a => tag.put a.1 a.2.shown) tag).name = tag.name := by
  induction as with
  | nil => exact fun _ => rfl
  | cons a tl ih => exact fun tag => ih (tag.put a.1 a.2.shown)

theorem editContent_of_isOfTag (h : ∀ e ∈ es, e.isOfTag) (content : List Node) :
    editContent es content = content := by
  have hn : es.filter (fun e => !e.isOfTag) = [] := filter_eq_nil_iff.mpr fun e he => by simp [h e he]
  rw [← editContent_filter_not, hn, editContent_nil]

theorem editTag_of_not_isOfTag (h : ∀ e ∈ es, e.isOfTag = false) (tag : Tag) : editTag es tag = tag := by
  have hn : es.filter Edit.isOfTag = [] := filter_eq_nil_iff.mpr fun e he => by simp [h e he]
  rw [← editTag_filter, hn]
  rfl

variable {label l : Label} {c b t after a : List Node} {p : Node → Bool}

theorem onContent_within (h : splitAtChild? l c = some (b, tag, t, after)) (es : List Edit) :
    Edit.onContent (.within l es) c = b ++ .element (editTag es tag) (editContent es t) :: after := by
  rw [Edit.onContent, h]

theorem splitAtChild?_onContent (h : splitAtChild? l c = some (b, tag, t, a)) (es : List Edit) :
    splitAtChild? l (Edit.onContent (.within l es) c) = some (b, editTag es tag, editContent es t, a) := by
  obtain ⟨-, hl, hb⟩ := splitAtChild?_eq_some h
  rw [onContent_within h]
  exact splitAtChild?_append (by rw [editTag_name, hl]) _ _ hb

theorem onContent_within_within (l : Label) (es ms : List Edit) (content : List Node) :
    Edit.onContent (.within l ms) (Edit.onContent (.within l es) content)
      = Edit.onContent (.within l (es ++ ms)) content := by
  cases h : splitAtChild? l content with
  | none => simp [Edit.onContent, h]
  | some f =>
    rw [onContent_within (splitAtChild?_onContent h es), onContent_within h, editTag_append, editContent_append]

section

variable {label l : Label} {as : List (Label × DraftValue)}

theorem lacks_eq (c : List Node) (ds : List Draft) : lacks c (.element l as ds) = !c.any (Node.is l) := by
  rw [lacks, Draft.label?, any_some]

/-- An edit sees to it that there is a child with a label. It adds one somewhere, and does nothing if there is one. -/
structure Provides (edit : Edit) (label : Label) (attributes : List (Label × DraftValue)) : Prop where
  same : ∀ content : List Node, content.any (Node.is label) = true → edit.onContent content = content
  new : ∀ content : List Node, content.any (Node.is label) = false → ∃ before after, content = before ++ after ∧
    edit.onContent content = before ++ (Draft.element label attributes []).bare :: after ∧
    leadingText? before = leadingText? content

theorem provides_ensure : Provides (.ensure (.element l as [])) l as where
  same c ha := by
    rw [Edit.onContent, lacks_eq, ha]
    rfl
  new c ha := ⟨c, [], (append_nil c).symm, by rw [Edit.onContent, lacks_eq, ha]; rfl, rfl⟩

theorem provides_ensureFirst : Provides (.ensureFirst (.element l as [])) l as where
  same c ha := by
    rw [Edit.onContent, lacks_eq, ha]
    rfl
  new c ha := by
    have ht : (Draft.element l as []).bare.isText = false := by
      rfl
    have hl := leadingText?_insertBefore (p := fun n => !n.isText) (fun _ => rfl) ht c
    obtain ⟨b, a, hc, hn⟩ := insertBefore_eq_append (fun n => !n.isText) (Draft.element l as []).bare c
    rw [hn, leadingText?_append_cons ht] at hl
    exact ⟨b, a, hc, by rw [Edit.onContent, lacks_eq, ha]; exact hn, hl⟩

theorem Provides.split {e : Edit} (h : Provides e label as) (c : List Node) :
    ∃ b tag t a, splitAtChild? label (e.onContent c) = some (b, tag, t, a) ∧
    leadingText? b = leadingText? c ∧ (splitAtChild? label c = some (b, tag, t, a) ∨
      splitAtChild? label c = none ∧ c = b ++ a ∧ (Draft.element label as []).bare = .element tag t) := by
  cases hs : splitAtChild? label c with
  | some f =>
    obtain ⟨b, tag, t, a⟩ := f
    obtain ⟨rfl, hl, -⟩ := splitAtChild?_eq_some hs
    have ha : (b ++ .element tag t :: a).any (Node.is label) := any_eq_true.mpr ⟨.element tag t, by simp, is_iff.mpr hl⟩
    exact ⟨b, tag, t, a, by rw [h.same _ ha, hs], (leadingText?_append_cons rfl b a).symm, .inl rfl⟩
  | none =>
    have hn := splitAtChild?_eq_none.mp hs
    obtain ⟨b, a, rfl, hne, hle⟩ := h.new c (by simpa using hn)
    obtain ⟨tag, t, hb, hl⟩ : ∃ tag t, (Draft.element label as []).bare = .element tag t ∧
        tag.name.label = label := ⟨_, _, by rw [Draft.bare], by rw [foldl_put_name, label_bare]⟩
    refine ⟨b, tag, t, a, ?_, hle, .inr ⟨rfl, rfl, hb⟩⟩
    rw [hne, hb]
    exact splitAtChild?_append hl t a fun n hno => hn n (by simp [hno])

theorem Provides.editContent_twice {e : Edit} (h : Provides e l as)
    (ht : ∀ tag, editTag es (editTag es tag) = editTag es tag)
    (hc : ∀ t, editContent es (editContent es t) = editContent es t) (content : List Node) :
    editContent [e, .within l es] (editContent [e, .within l es] content) = editContent [e, .within l es] content := by
  simp only [editContent_cons, editContent_nil]
  obtain ⟨b, tag, t, a, hs, -⟩ := h.split content
  have ha := splitAtChild?_onContent hs es
  have han : (Edit.onContent (.within l es) (e.onContent content)).any (Node.is l) := by
    obtain ⟨heq, hl, -⟩ := splitAtChild?_eq_some ha
    rw [heq]
    refine any_eq_true.mpr ⟨_, mem_append_right _ (mem_cons_self ..), ?_⟩
    rw [Node.is, is_iff, hl]
  rw [h.same _ han, onContent_within_within, onContent_within hs, onContent_within hs, editTag_append,
    editContent_append, ht, hc]

end

theorem setLeadingText_twice (s : String) (content : List Node) :
    setLeadingText s (setLeadingText s content) = setLeadingText s content := by
  rw [setLeadingText, setLeadingText, dropTexts, dropWhile_cons_of_pos rfl, dropTexts, dropWhile_idempotent]

/-! ### Removing children twice -/

theorem not_mem_removeNodes (hp : ∀ s, p (.text s) = false) (c : List Node) (gone : Bool) :
    ∀ n ∈ removeNodes p gone c, p n = false := by
  fun_induction removeNodes p gone c with
  | case1 => exact forall_mem_nil _
  | case2 _ _ ih | case4 _ _ _ _ _ ih => exact ih
  | case3 _ s _ _ ih => exact forall_mem_cons.mpr ⟨hp s, ih⟩
  | case5 _ _ _ _ hn ih => exact forall_mem_cons.mpr ⟨by simpa using hn, ih⟩

theorem removeNodes_append (ms : List Node) : ∀ {c : List Node}, (∀ n ∈ c, p n = false) →
    removeNodes p false (c ++ ms) = c ++ removeNodes p false ms
  | [], _ => rfl
  | n :: tl, h => by
    obtain ⟨hn, hr⟩ := forall_mem_cons.mp h
    have ih := removeNodes_append ms hr
    cases n with
    | text s =>
      rw [cons_append, removeNodes, ih]
      rfl
    | element | comment | instruction =>
      rw [cons_append, removeNodes_cons p false rfl, if_neg (by simp [hn]), ih]
      rfl

end ProcessForge.Xml
