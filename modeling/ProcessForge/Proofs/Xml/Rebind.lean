import ProcessForge.Proofs.Xml.Draft
import ProcessForge.Proofs.Xml.WellBound

/-! Putting declarations in order keeps the labels of all names. Along the pass, the renaming has for every
    declaration of the old tree a namespace with the same URI, so that names keep their URIs while their short
    forms may change. -/

namespace ProcessForge.Xml

open List Option

variable {space sp : Namespace}

/-! ### Trees with the same labels -/

/-- A short form stands for a URI that is not empty. -/
def Namespace.IsNamed (space : Namespace) : Prop := space.short.isSome → space.uri ≠ ""

/-- A tag with the same labels and values as another one. -/
structure Tag.Rebound (tag tag' : Tag) : Prop where
  label : tag'.name.label = tag.name.label
  attributes : tag'.attributes.map (fun a => (a.name.label, a.value))
    = tag.attributes.map fun a => (a.name.label, a.value)
  declared : ∀ space ∈ tag'.declared, space.IsNamed

/-- A node with the same labels, values and leaves as another one. -/
inductive Rebound : Node → Node → Prop
  | leaf {node : Node} : node.element? = none → Rebound node node
  | element {tag tag' : Tag} {content content' : List Node} : tag.Rebound tag' →
      Forall₂ Rebound content content' → Rebound (.element tag content) (.element tag' content')

/-! ### Renamings -/

/-- A renaming has for every declaration a namespace with the same URI. -/
def Renaming.Follows (renames : Renaming) (bindings : List Namespace) : Prop :=
  Forall₂ (fun b r => r.1 = b.short ∧ r.2.uri = b.uri) bindings renames

theorem keepNew_follows (o : Scope) : ∀ d : List Namespace, (keepNew o d).2.Follows d ∧ ∀ sp ∈ (keepNew o d).1, sp ∈ d
  | [] => ⟨.nil, by simp [keepNew]⟩
  | sp :: tl => by
    obtain ⟨hf, hke⟩ := keepNew_follows o tl
    cases hk : o.byUri? sp.uri false with
    | some known =>
      simp only [keepNew, hk]
      exact ⟨.cons ⟨rfl, byUri?_uri hk⟩ hf, fun b ho => mem_cons_of_mem _ (hke b ho)⟩
    | none =>
      simp only [keepNew, hk]
      refine ⟨.cons ⟨rfl, rfl⟩ hf, fun b ho => ?_⟩
      rcases mem_cons.mp ho with rfl | ho
      · exact mem_cons_self ..
      · exact mem_cons_of_mem _ (hke b ho)

section

variable {bindings bs : List Namespace} {rs : Renaming}

theorem Renaming.Follows.lookup (h : rs.Follows bs) (s : Option String) :
    (rs.lookup s).map Namespace.uri = (bs.find? fun b => b.short == s).map Namespace.uri := by
  induction h with
  | nil => rfl
  | @cons b r bs rs hf _ ih =>
    obtain ⟨rshort, sp⟩ := r
    obtain ⟨rfl, hu⟩ := hf
    rw [lookup_cons]
    by_cases hs : s = b.short
    · subst hs
      simpa using hu
    · simpa [beq_false_of_ne hs, beq_false_of_ne (Ne.symm hs)] using ih

theorem Renaming.Follows.of_xml (h : rs.Follows bindings) (hp : ∀ b ∈ bindings, Namespace.IsProper b)
    (hx : space.short = some "xml") : rs.of space = space := by
  have hn : bindings.find? (fun b => b.short == space.short) = none := by
    refine find?_eq_none.mpr fun b hb => ?_
    rw [hx]
    simpa using (hp b hb).short
  have hl := h.lookup space.short
  rw [hn, map_none, map_eq_none_iff] at hl
  rw [Renaming.of, hl, getD_none]

theorem Renaming.Follows.of_uri (h : rs.Follows bindings) (hp : ∀ b ∈ bindings, Namespace.IsProper b)
    (hs : Resolves bindings space) : (rs.of space).uri = space.uri := by
  rcases hs with hx | ⟨b, hf, hu⟩
  · rw [h.of_xml hp hx]
  · have hl := h.lookup space.short
    rw [hf] at hl
    obtain ⟨tgt, hta, ht⟩ := map_eq_some_iff.mp hl
    rw [Renaming.of, hta, getD_some, ht, hu]

end

/-! ### Attributes -/

section

variable {bindings bs : List Namespace} {rs : Renaming} (ar : Scope) (top : Option Namespace)

theorem rebindAttribute_spec (hf : rs.Follows bindings) (hp : ∀ b ∈ bindings, Namespace.IsProper b) {a : Attribute}
    (ha : ∀ sp, a.name.space = some sp → Resolves bindings sp) {s : Rebinding}
    (hst : ∀ sp ∈ s.declared, sp.IsNamed) : (rebindAttribute ar top rs s a).1.name.label = a.name.label ∧
    (rebindAttribute ar top rs s a).1.value = a.value ∧
    ∀ sp ∈ (rebindAttribute ar top rs s a).2.declared, sp.IsNamed := by
  unfold rebindAttribute
  cases hn : a.name.space with
  | none => exact ⟨rfl, rfl, hst⟩
  | some sp =>
    have hu := hf.of_uri hp (ha sp hn)
    have hl : ∀ f : Namespace, f.uri = sp.uri → Name.label ⟨some f, a.name.stem⟩ = a.name.label := by
      intro f hfo
      rw [Name.label, Name.label, Name.uri?, Name.uri?, hn, map_some, map_some, hfo]
    simp only
    split
    · exact ⟨hl _ hu, rfl, hst⟩
    · next hs =>
      simp only [Bool.or_eq_true, not_or, Bool.not_eq_true] at hs
      obtain ⟨hc, had⟩ := claim_uri (⟨s.declared, top⟩ :: ar) sp.uri sp.short true s.coined
      refine ⟨hl _ hc, rfl, fun o ho => ?_⟩
      rcases mem_append.mp ho with ho | ho
      · exact hst o ho
      · -- a new declaration is of the URI of a short form in the old tree
        intro _
        rw [had o ho]
        rcases ha sp hn with hx | ⟨b, hfi, hb⟩
        · rw [hf.of_xml hp hx, hx] at hs
          simp at hs
        · have hbs : b.short = sp.short := by simpa using find?_some hfi
          rw [← hb]
          refine (hp b (mem_of_find?_eq_some hfi)).uri ?_
          rw [hbs]
          exact isNone_eq_false_iff.mp hs.2

theorem rebindAttributes_spec (hf : rs.Follows bindings)
    (hp : ∀ b ∈ bindings, Namespace.IsProper b) : ∀ {ats : List Attribute} {s : Rebinding},
    (∀ a ∈ ats, ∀ sp, a.name.space = some sp → Resolves bindings sp) →
    (∀ sp ∈ s.declared, sp.IsNamed) →
    (rebindAttributes ar top rs s ats).1.map (fun a => (a.name.label, a.value))
      = ats.map (fun a => (a.name.label, a.value)) ∧
    ∀ sp ∈ (rebindAttributes ar top rs s ats).2.declared, sp.IsNamed
  | [], _, _, hs => ⟨rfl, hs⟩
  | a :: tl, s, h, hs => by
    obtain ⟨hl, hv, hfi⟩ := rebindAttribute_spec ar top hf hp (h a (mem_cons_self ..)) hs
    obtain ⟨hm, hr⟩ := rebindAttributes_spec hf hp (fun o ho => h o (mem_cons_of_mem _ ho)) hfi
    rw [rebindAttributes]
    exact ⟨by rw [map_cons, map_cons, hl, hv, hm], hr⟩

end

/-! ### The pass -/

theorem label_map (f : Namespace → Namespace) {name : Name} (h : ∀ sp, name.space = some sp → (f sp).uri = sp.uri) :
    Name.label ⟨name.space.map f, name.stem⟩ = name.label := by
  rw [Name.label, Name.label, Name.uri?, Name.uri?, Option.map_map]
  cases hn : name.space with
  | none => rfl
  | some sp =>
    rw [map_some, Function.comp_apply, h sp hn]
    rfl

theorem Tag.IsBound.name {bs : List Namespace} {tag : Tag} (h : tag.IsBound bs)
    (hs : tag.name.space = some space) : Resolves (tag.declared ++ bs) space :=
  h.spaces space (mem_append_left _ (mem_toList.mpr hs))

theorem Tag.IsBound.attribute {bs : List Namespace} {tag : Tag} (h : tag.IsBound bs) {a : Attribute}
    (ha : a ∈ tag.attributes) (hs : a.name.space = some space) : Resolves (tag.declared ++ bs) space :=
  h.spaces space (mem_append_right _ (mem_filterMap.mpr ⟨a, ha, hs⟩))

theorem Namespace.IsProper.isNamed (h : space.IsProper) : space.IsNamed := h.uri

theorem rebindContent_spec (ar : Scope) (top : Option Namespace) : ∀ (ns : List Node)
    {bs : List Namespace} (t : Scope) {rs : Renaming} {s : Rebinding},
    (∀ n ∈ ns, WellBound bs n) → rs.Follows bs →
    (∀ b ∈ bs, Namespace.IsProper b) → (∀ sp ∈ s.declared, sp.IsNamed) →
    Forall₂ Rebound ns (rebindContent ar top t rs s ns).1 ∧
    ∀ sp ∈ (rebindContent ar top t rs s ns).2.declared, sp.IsNamed
  | [], _, _, _, _, _, _, _, hs => ⟨.nil, hs⟩
  | .element tag ns :: tl, bs, t, rs, s, h, hf, hp, hs => by
    obtain ⟨⟨⟨⟩⟩ | ⟨ht, hc⟩, h⟩ := forall_mem_cons.mp h
    rw [rebindContent, rebindNode]
    obtain ⟨hr, hk⟩ := keepNew_follows (t ++ ⟨s.declared, top⟩ :: ar) tag.declared
    generalize keepNew (t ++ ⟨s.declared, top⟩ :: ar) tag.declared = new at hr hk ⊢
    have hf' : Renaming.Follows (new.2 ++ rs) (tag.declared ++ bs) := rel_append hr hf
    have hp' : ∀ b ∈ tag.declared ++ bs, Namespace.IsProper b := fun b hb =>
      (mem_append.mp hb).elim (ht.declared b) (hp b)
    obtain ⟨hat, hs'⟩ := rebindAttributes_spec ar top hf' hp' (fun a ha sp hsp => ht.attribute ha hsp) hs
    obtain ⟨hin, hs''⟩ := rebindContent_spec ar top ns
      (⟨new.1, tag.name.space.map (Renaming.of (new.2 ++ rs))⟩ :: t) hc hf'
      hp' hs'
    obtain ⟨hre, hs''⟩ := rebindContent_spec ar top tl t h hf hp hs''
    refine ⟨.cons (.element ⟨label_map _ fun sp hsp => ?_, hat, ?_⟩ hin) hre, hs''⟩
    · exact hf'.of_uri hp' (ht.name hsp)
    · exact fun sp hsp => (ht.declared sp (hk sp hsp)).isNamed
  | .text _ :: tl, _, t, _, _, h, hf, hp, hs
  | .comment _ :: tl, _, t, _, _, h, hf, hp, hs
  | .instruction _ _ :: tl, _, t, _, _, h, hf, hp, hs =>
    have hr := rebindContent_spec ar top tl t (forall_mem_cons.mp h).2 hf hp hs
    ⟨.cons (.leaf rfl) hr.1, hr.2⟩

theorem rebind_spec (ar : Scope) (coined : Nat) {e : Element} (h : WellBound [] e.node) :
    Rebound e.node (e.rebind ar coined).1.node := by
  cases h with
  | leaf hl => cases hl
  | element ht hc =>
    rw [append_nil] at hc
    rw [Element.rebind]
    obtain ⟨hf, hk⟩ := keepNew_follows ar e.tag.declared
    generalize keepNew ar e.tag.declared = new at hf hk ⊢
    have hn : ∀ space ∈ new.1, Namespace.IsNamed space := fun space hs =>
      (ht.declared space (hk space hs)).isNamed
    obtain ⟨hat, hst⟩ := rebindAttributes_spec ar (e.tag.name.space.map new.2.of) hf
      ht.declared (fun a ha space hs => append_nil e.tag.declared ▸ ht.attribute ha hs)
      (show ∀ space ∈ (Rebinding.mk new.1 coined).declared, space.IsNamed from hn)
    obtain ⟨hin, hs'⟩ := rebindContent_spec ar (e.tag.name.space.map new.2.of) e.content [] hc hf ht.declared hst
    refine .element ⟨label_map _ fun space hs => ?_, hat, hs'⟩ hin
    exact hf.of_uri ht.declared (append_nil e.tag.declared ▸ ht.name hs)

mutual

theorem Rebound.prune (keep : List String) : ∀ (n' : Node) {n : Node}, Rebound n n' → Rebound n (pruneNode keep n').1
  | .element tag' ns', .element tag ns, .element ht hc => by
    refine .element ⟨ht.label, ht.attributes, fun sp hs => ?_⟩ (forall₂_prune keep ns' hc)
    exact ht.declared sp (mem_filter.mp hs).1
  | .text _, _, h | .comment _, _, h | .instruction _ _, _, h => by exact h

theorem forall₂_prune (keep : List String) : ∀ (ns' : List Node) {ns : List Node}, Forall₂ Rebound ns ns' →
    Forall₂ Rebound ns (pruneContent keep ns').1
  | [], _, h => by exact h
  | n' :: tl', _, .cons hn hr => .cons (hn.prune keep n') (forall₂_prune keep tl' hr)

end

theorem prune_node (keep : List String) (e : Element) : (e.prune keep).node = (pruneNode keep e.node).1 := by
  rfl

/-! ### The whole document -/

theorem foldl_declare (spaces d : List Namespace) :
    ∃ ms, spaces.foldl declare d = d ++ ms ∧ ∀ sp ∈ ms, sp ∈ spaces := by
  induction spaces generalizing d with
  | nil => exact ⟨[], by simp⟩
  | cons sp tl ih =>
    rw [foldl_cons]
    obtain ⟨ms, hmo, hm⟩ := ih (declare d sp)
    rw [hmo, declare]
    split
    · exact ⟨ms, rfl, fun b ho => mem_cons_of_mem _ (hm b ho)⟩
    · refine ⟨sp :: ms, by rw [append_assoc, singleton_append], fun b ho => ?_⟩
      rcases mem_cons.mp ho with rfl | ho
      · exact mem_cons_self ..
      · exact mem_cons_of_mem _ (hm b ho)

theorem Rebound.of_declared {name : Name} {ats : List Attribute} {d declared' : List Namespace}
    {ns : List Node} {node' : Node} (h : Rebound (.element ⟨name, d, ats⟩ ns) node') :
    Rebound (.element ⟨name, declared', ats⟩ ns) node' := by
  cases h with
  | leaf hl => cases hl
  | element ht hc => exact .element ⟨ht.label, ht.attributes, ht.declared⟩ hc

theorem ensureNamespaces_rebound {d : Document} (h : WellBound [] d.root.node) {ss : List Namespace}
    (hsp : ∀ sp ∈ ss, sp.IsProper) : Rebound d.root.node (d.ensureNamespaces ss).root.node := by
  obtain ⟨ms, hm, hme⟩ := foldl_declare ss d.root.tag.declared
  have he : WellBound [] (.element { d.root.tag with declared := d.root.tag.declared ++ ms } d.root.content) := by
    cases h with
    | leaf hl => cases hl
    | element ht hc =>
      have hb := ht.append ms
      refine .element ⟨fun sp hs => ?_, fun sp hs => ?_⟩ fun n hn => ?_
      · rcases mem_append.mp hs with hs | hs
        · exact ht.declared sp hs
        · exact hsp sp (hme sp hs)
      · rw [append_nil]
        exact hb.spaces sp hs
      · have hn := hc n hn
        rw [append_nil] at hn ⊢
        exact hn.append ms
  rw [Document.ensureNamespaces]
  simp only [hm]
  exact Rebound.prune _ _ (Rebound.of_declared
    (rebind_spec [] d.coined (e := ⟨⟨d.root.tag.name, _, d.root.tag.attributes⟩, d.root.content⟩) he))

mutual

theorem Rebound.isNamed : ∀ (n' : Node) {n : Node}, Rebound n n' → ∀ e ∈ n'.elements, ∀ sp ∈ e.tag.declared, sp.IsNamed
  | .element tag' ns', .element tag ns, .element ht hc, e, he => by
    rcases mem_cons.mp (elements_element tag' ns' ▸ he) with rfl | he
    · exact ht.declared
    · exact isNamed_of_forall₂ ns' hc e he
  | .text _, _, _, e, he | .comment _, _, _, e, he | .instruction _ _, _, _, e, he => by
    cases he

theorem isNamed_of_forall₂ : ∀ (ns' : List Node) {ns : List Node}, Forall₂ Rebound ns ns' →
    ∀ e ∈ elementsBelow ns', ∀ sp ∈ e.tag.declared, sp.IsNamed
  | [], _, _, e, he => by cases he
  | n' :: tl', _, .cons hn hr, e, he => by
    rcases mem_append.mp (elementsBelow_cons n' tl' ▸ he) with he | he
    · exact hn.isNamed n' e he
    · exact isNamed_of_forall₂ tl' hr e he

end

end ProcessForge.Xml
