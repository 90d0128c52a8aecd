import ProcessForge.Proofs.Xml.Rebind

/-! Laws that all tags of a tree keep. A law reads only names and attributes in no namespace. These do not take part
    when declarations are put in order, in a tree that is well bound as in any other. What an edit adds keeps the law
    if its drafts do. -/

namespace ProcessForge.Xml

/-! ### Names in no namespace -/

def Name.plain? (name : Name) : Option String := if name.space.isSome then none else some name.stem

theorem label_eq_plain (name : Name) (st : String) : (name.label == .plain st) = (name.plain? == some st) := by
  obtain ⟨s, own⟩ := name
  cases s with
  | none => simp [Name.label, Name.uri?, Name.plain?, Label.plain, beq_eq_decide]
  | some s => simp [Name.label, Name.uri?, Name.plain?, Label.plain, beq_eq_decide]

/-- A tag that is the same in no namespace. -/
structure Tag.SamePlain (tag tag' : Tag) : Prop where
  name : tag'.name.plain? = tag.name.plain?
  attributes : tag'.attributes.map (fun a => (a.name.plain?, a.value))
    = tag.attributes.map fun a => (a.name.plain?, a.value)

variable {tag tag' : Tag} {P : Tag → Prop} {d : Draft}

theorem Tag.SamePlain.is (h : tag.SamePlain tag') (s : String) : tag'.is (.plain s) = tag.is (.plain s) := by
  rw [Tag.is, Tag.is, label_eq_plain, label_eq_plain, h.name]

theorem get?_eq_find? (tag : Tag) (s : String) : tag.get? s
    = ((tag.attributes.map fun a => (a.name.plain?, a.value)).find? fun a => a.1 == some s).map Prod.snd := by
  rw [Tag.get?, Tag.value?, List.find?_map, Option.map_map]
  simp only [label_eq_plain]
  rfl

theorem Tag.SamePlain.get? (h : tag.SamePlain tag') (stem : String) : tag'.get? stem = tag.get? stem := by
  rw [get?_eq_find?, get?_eq_find?, h.attributes]

/-- A law that reads only what is in no namespace. -/
def IsPlainLaw (P : Tag → Prop) : Prop := ∀ tag tag', tag.SamePlain tag' → P tag → P tag'

/-! ### Declarations put in order -/

theorem plain?_map (f : Namespace → Namespace) (name : Name) :
    Name.plain? ⟨name.space.map f, name.stem⟩ = name.plain? := by
  rw [Name.plain?, Name.plain?, Option.isSome_map]

section

variable (ar : Scope) (top : Option Namespace)

theorem rebindAttribute_plain (rs : Renaming) (s : Rebinding) (a : Attribute) :
    (rebindAttribute ar top rs s a).1.name.plain? = a.name.plain? ∧
    (rebindAttribute ar top rs s a).1.value = a.value := by
  unfold rebindAttribute
  split
  · exact ⟨rfl, rfl⟩
  · next space hs =>
    have hp : a.name.plain? = none := by rw [Name.plain?, hs]; rfl
    dsimp only
    split
    · exact ⟨hp.symm, rfl⟩
    · exact ⟨hp.symm, rfl⟩

theorem rebindAttributes_plain (rs : Renaming) : ∀ (ats : List Attribute) (s : Rebinding),
    (rebindAttributes ar top rs s ats).1.map (fun a => (a.name.plain?, a.value))
      = ats.map fun a => (a.name.plain?, a.value)
  | [], _ => rfl
  | a :: tl, s => by
    obtain ⟨hn, hv⟩ := rebindAttribute_plain ar top rs s a
    rw [rebindAttributes]
    rw [List.map_cons, List.map_cons, hn, hv, rebindAttributes_plain rs tl]

variable {P : Tag → Prop}

theorem all_rebindContent (hP : IsPlainLaw P) : ∀ (ns : List Node) (t : Scope) (rs : Renaming)
    (s : Rebinding), (∀ n ∈ ns, n.All P) → ∀ n ∈ (rebindContent ar top t rs s ns).1, n.All P
  | [], _, _, _, _ => List.forall_mem_nil _
  | .element tag ns :: tl, t, rs, s, h => by
    rw [List.forall_mem_cons, all_element] at h
    refine List.forall_mem_cons.mpr ⟨all_element.mpr ⟨hP tag _ ⟨plain?_map _ _, rebindAttributes_plain ..⟩ h.1.1, ?_⟩,
      all_rebindContent hP tl _ _ _ h.2⟩
    exact all_rebindContent hP ns _ _ _ h.1.2
  | .text _ :: tl, _, _, _, h | .comment _ :: tl, _, _, _, h | .instruction _ _ :: tl, _, _, _, h =>
    List.forall_mem_cons.mpr ⟨all_leaf rfl, all_rebindContent hP tl _ _ _ (List.forall_mem_cons.mp h).2⟩

end

section

variable {P : Tag → Prop}

mutual

theorem all_pruneNode (hP : IsPlainLaw P) (keep : List String) : ∀ n : Node, n.All P → (pruneNode keep n).1.All P
  | .element tag ns, h => by
    obtain ⟨ht, hc⟩ := all_element.mp h
    exact all_element.mpr ⟨hP tag _ ⟨rfl, rfl⟩ ht, all_pruneContent hP keep ns hc⟩
  | .text _, _ | .comment _, _ | .instruction _ _, _ => all_leaf rfl

theorem all_pruneContent (hP : IsPlainLaw P) (keep : List String) : ∀ ns : List Node,
    (∀ n ∈ ns, n.All P) → ∀ n ∈ (pruneContent keep ns).1, n.All P
  | [], _ => List.forall_mem_nil _
  | n :: tl, h => by
    rw [List.forall_mem_cons] at h
    exact List.forall_mem_cons.mpr ⟨all_pruneNode hP keep n h.1, all_pruneContent hP keep tl h.2⟩

end

theorem graftAll_leaf (s : Scope) {n : Node} (h : n.element? = none) (tl : List Node) :
    graftAll s (n :: tl) = graftAll s tl >>= fun copies => pure (n :: copies) := by
  cases n with
  | element => cases h
  | text | comment | instruction =>
    rw [graftAll]
    intro tag ns heq
    cases heq

variable (hP : IsPlainLaw P)

include hP

theorem all_rebind (ar : Scope) (coined : Nat) {e : Element} (h : e.node.All P) :
    (e.rebind ar coined).1.node.All P := by
  obtain ⟨ht, hc⟩ := all_element.mp h
  refine all_element.mpr ⟨hP e.tag _ ⟨plain?_map _ _, rebindAttributes_plain ..⟩ ht, ?_⟩
  exact all_rebindContent ar _ hP e.content _ _ _ hc

theorem all_withDeclared {e : Element} (declared : List Namespace) (h : e.node.All P) :
    (Element.node { e with tag := { e.tag with declared := declared } }).All P := by
  obtain ⟨ht, hc⟩ := all_element.mp h
  exact all_element.mpr ⟨hP e.tag _ ⟨rfl, rfl⟩ ht, hc⟩

theorem all_ensureNamespaces {d : Document} (ss : List Namespace) (h : d.root.node.All P) :
    (d.ensureNamespaces ss).root.node.All P := by
  exact all_pruneNode hP _ _ (all_rebind hP [] d.coined (all_withDeclared hP _ h))

theorem graftAll_all (s : Scope) {ns : List Node} (h : ∀ n ∈ ns, n.All P) :
    Gives (graftAll s ns) fun copies => ∀ n ∈ copies, n.All P := by
  induction ns with
  | nil => exact Gives.pure (List.forall_mem_nil _)
  | cons n tl ih =>
    rw [List.forall_mem_cons] at h
    cases he : n.element? with
    | none =>
      rw [graftAll_leaf s he]
      exact (ih h.2).bind fun copies hc => Gives.pure (List.forall_mem_cons.mpr ⟨h.1, hc⟩)
    | some e =>
      rw [eq_element_of_element? he] at h ⊢
      refine Gives.bind (P := fun n => n.All P) (fun supply => ?_) fun copy hco => ?_
      · exact all_rebind hP s supply.coined (all_withDeclared hP _ h.1)
      · exact (ih h.2).bind fun copies hc => Gives.pure (List.forall_mem_cons.mpr ⟨hco, hc⟩)

end

/-! ### Drafts -/

/-- All tags that a draft describes keep a law. -/
inductive Draft.Keeps (P : Tag → Prop) : Draft → Prop
  | text (s : String) : Draft.Keeps P (.text s)
  | element {label : Label} {attributes : List (Label × DraftValue)} {content : List Draft} :
      (∀ tag, Tag.IsOf label attributes tag → P tag) → (∀ draft ∈ content, Draft.Keeps P draft) →
      Draft.Keeps P (.element label attributes content)

mutual

/-- Whether no element of a draft has a label. -/
def Draft.avoids (l : Label) : Draft → Bool
  | .text _ => true
  | .element label _ content => label != l && avoidsAll l content

/-- Whether no element of drafts has a label. -/
def avoidsAll (l : Label) : List Draft → Bool
  | [] => true
  | draft :: rest => draft.avoids l && avoidsAll l rest

end

theorem avoidsAll_iff {l : Label} {ds : List Draft} : avoidsAll l ds ↔ ∀ d ∈ ds, d.avoids l := by
  induction ds with
  | nil => simp [avoidsAll]
  | cons d tl ih => rw [avoidsAll, Bool.and_eq_true, List.forall_mem_cons, ih]

mutual

theorem keeps_of_avoids {P : Tag → Prop} {l : Label} (hP : ∀ tag : Tag, tag.name.label ≠ l → P tag) :
    ∀ d : Draft, d.avoids l → d.Keeps P
  | .text s, _ => .text s
  | .element label ats ns, h => by
    rw [Draft.avoids, Bool.and_eq_true, bne_iff_ne] at h
    refine .element (fun tag ht => hP tag ?_) (forall_keeps_of_avoidsAll hP ns h.2)
    rw [ht.label]
    exact h.1

theorem forall_keeps_of_avoidsAll {P : Tag → Prop} {l : Label} (hP : ∀ tag : Tag, tag.name.label ≠ l → P tag) :
    ∀ ds : List Draft, avoidsAll l ds → ∀ d ∈ ds, d.Keeps P
  | [], _ => List.forall_mem_nil _
  | d :: tl, h => by
    rw [avoidsAll, Bool.and_eq_true] at h
    exact List.forall_mem_cons.mpr ⟨keeps_of_avoids hP d h.1, forall_keeps_of_avoidsAll hP tl h.2⟩

end

theorem Draft.Keeps.all (h : d.Keeps P) {n : Node} (hn : Settled d n) : n.All P := by
  induction h generalizing n with
  | text s =>
    cases hn
    exact all_leaf rfl
  | element ht _ ih =>
    cases hn with
    | element ho hc =>
      refine all_element.mpr ⟨ht _ ho, fun t hin => ?_⟩
      obtain ⟨d, hd, hs⟩ := exists_of_mem_right hc hin
      exact ih d hd hs

theorem settle_keeps (o : Scope) (h : d.Keeps P) : Gives (d.settle o) fun n => n.All P :=
  (settle_settled d o).mono fun _ hn => h.all hn

/-! ### Edits -/

/-- An edit breaks a law at no tag, and keeps it in what it adds. -/
inductive Edit.Keeps (P : Tag → Prop) : Edit → Prop
  | set {l : Label} {value : String} : (∀ tag tag', tag.Written l value tag' → P tag → P tag') →
      Edit.Keeps P (.set l value)
  | setMissing {l : Label} {value : String} : (∀ tag tag', tag.Written l value tag' → P tag → P tag') →
      Edit.Keeps P (.setMissing l value)
  | drop {stem : String} : (∀ tag, P tag → P (tag.drop stem)) → Edit.Keeps P (.drop stem)
  | clear (l : Label) : Edit.Keeps P (.clear l)
  | clearAll : Edit.Keeps P .clearAll
  | append {draft : Draft} : draft.Keeps P → Edit.Keeps P (.append draft)
  | ensure {draft : Draft} : draft.Keeps P → Edit.Keeps P (.ensure draft)
  | place {draft : Draft} (anchors : List Label) : draft.Keeps P → Edit.Keeps P (.place draft anchors)
  | graft {nodes : List Node} : (∀ node ∈ nodes, node.All P) → Edit.Keeps P (.graft nodes)
  | within (l : Label) {edits : List Edit} : (∀ edit ∈ edits, Edit.Keeps P edit) → Edit.Keeps P (.within l edits)

section

variable {P : Tag → Prop}

theorem all_placeNode {ns : List Node} (hc : ∀ n ∈ ns, n.All P) {new : Node} (hne : new.All P)
    (anchors : List Label) : ∀ n ∈ placeNode anchors new ns, n.All P := by
  intro n hn
  rw [placeNode] at hn
  split at hn
  · rcases mem_insertBefore hn with rfl | hn
    · exact hne
    · exact hc n hn
  · rcases List.mem_append.mp hn with hn | hn
    · exact hc n hn
    · rw [List.mem_singleton.mp hn]
      exact hne

theorem Edit.Keeps.apply (hP : IsPlainLaw P) {e : Edit} (h : e.Keeps P) : ∀ (s : Scope) (tag : Tag)
    (ns : List Node), P tag ∧ (∀ n ∈ ns, n.All P) → Gives (e.apply s tag ns) fun r => P r.1 ∧ ∀ n ∈ r.2, n.All P := by
  rintro s tag ns ⟨ht, hc⟩
  induction h generalizing s tag ns with rw [Edit.apply]
  | set hs =>
    refine (writeAttribute_written s tag _ _).bind fun tag' hwritten => ?_
    exact Gives.pure ⟨hs tag tag' hwritten ht, hc⟩
  | setMissing hs =>
    split
    · exact Gives.pure ⟨ht, hc⟩
    · refine (writeAttribute_written s tag _ _).bind fun tag' hwritten => ?_
      exact Gives.pure ⟨hs tag tag' hwritten ht, hc⟩
  | drop hdr =>
    exact Gives.pure ⟨hdr tag ht, hc⟩
  | clear l =>
    exact Gives.pure ⟨ht, fun n hno => hc n ((removeNodes_sublist _ _ _).subset hno)⟩
  | clearAll =>
    exact Gives.pure ⟨ht, fun n hno => hc n ((removeNodes_sublist _ _ _).subset hno)⟩
  | append hd =>
    refine (settle_keeps _ hd).bind fun new hn => Gives.pure ⟨ht, ?_⟩
    exact List.forall_mem_append.mpr ⟨hc, List.forall_mem_singleton.mpr hn⟩
  | ensure hd =>
    split
    · refine (settle_keeps _ hd).bind fun new hn => Gives.pure ⟨ht, ?_⟩
      exact List.forall_mem_append.mpr ⟨hc, List.forall_mem_singleton.mpr hn⟩
    · exact Gives.pure ⟨ht, hc⟩
  | place anchors hd =>
    refine (settle_keeps _ hd).bind fun new hn => Gives.pure ⟨ht, ?_⟩
    exact all_placeNode hc hn anchors
  | graft hnod =>
    refine (graftAll_all hP _ hnod).bind fun copies hco => Gives.pure ⟨ht, ?_⟩
    exact List.forall_mem_append.mpr ⟨hc, hco⟩
  | within l _ ih =>
    split
    · exact Gives.pure ⟨ht, hc⟩
    · next pre childTag t post hsp =>
      obtain ⟨rfl, -, -⟩ := splitAtChild?_eq_some hsp
      rw [List.forall_mem_append, List.forall_mem_cons] at hc
      obtain ⟨hb, hch, ha⟩ := hc
      refine (applyEdits_invariant (I := fun tag ns => P tag ∧ ∀ n ∈ ns, n.All P)
        (fun e he tag ns h => ih e he _ tag ns h.1 h.2) (all_element.mp hch)).bind fun r hr => Gives.pure ⟨ht, ?_⟩
      exact List.forall_mem_append.mpr ⟨hb, List.forall_mem_cons.mpr ⟨all_element.mpr hr, ha⟩⟩

theorem all_of_forall₂ {ns ns' : List Node} (h : List.Forall₂ (fun n n' => n.All P → n'.All P) ns ns')
    (hc : ∀ n ∈ ns, n.All P) : ∀ n ∈ ns', n.All P := by
  induction h with
  | nil => exact List.forall_mem_nil _
  | cons hn _ ih =>
    rw [List.forall_mem_cons] at hc
    exact List.forall_mem_cons.mpr ⟨hn hc.1, ih hc.2⟩

theorem perform_keeps (hP : IsPlainLaw P) {n : Node} {js : List Job}
    (hj : n.Fits (fun _ own => ∀ ed ∈ own, ed.Keeps P) js) (s : Scope) :
    Gives (n.perform s js) fun n' => n.All P → n'.All P := by
  refine Node.Fits.perform (T := fun e _ tag => P e.tag → P tag) (R := fun n n' => n.All P → n'.All P)
    (fun _ _ h => h) (fun s e own ho supply ht => ?_)
    (fun s e own tag ns ho ht hc supply ha => ?_) n s js hj
  · exact (applyEdits_invariant (I := fun tag ns => P tag ∧ ∀ n ∈ ns, n.All P)
      (fun ed he => (ho ed (List.mem_filter.mp he).1).apply hP s) ⟨ht, List.forall_mem_nil _⟩ supply).1
  · obtain ⟨ho', hin⟩ := all_element.mp ha
    exact all_element.mpr (applyEdits_invariant (I := fun tag ns => P tag ∧ ∀ n ∈ ns, n.All P)
      (fun ed he => (ho ed (List.mem_filter.mp he).1).apply hP s)
      ⟨ht ho', all_of_forall₂ hc hin⟩ supply)

end

end ProcessForge.Xml
