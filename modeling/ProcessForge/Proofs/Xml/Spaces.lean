import ProcessForge.Proofs.Xml.Revision

/-! Namespaces of a tree. A class of namespaces that has everything with a made-up or a well-known short form is
    not left: neither by new names, nor by edits, nor by declarations that are put in order. -/

namespace ProcessForge.Xml

open List Option

variable {sc o : Scope} {space sp : Namespace} {tag : Tag} {state s : Rebinding}

/-- A class of namespaces that has all those with made-up and well-known short forms. -/
structure IsSpaceClass (P : Namespace → Prop) : Prop where
  xml : P ⟨some "xml", xmlUri⟩
  familiar : ∀ {uri short}, familiarShort? uri = some short → P ⟨some short, uri⟩
  coined : ∀ (n : Nat) (uri : String), P ⟨some ("ns" ++ toString n), uri⟩

/-- All namespaces of a layer are of a class. -/
structure Layer.HasOnly (P : Namespace → Prop) (layer : Layer) : Prop where
  declared : ∀ space ∈ layer.declared, P space
  space : ∀ space ∈ layer.space, P space

/-- All namespaces of a tag are of a class. -/
structure Tag.HasOnly (P : Namespace → Prop) (tag : Tag) : Prop where
  layer : tag.layer.HasOnly P
  attributes : ∀ a ∈ tag.attributes, ∀ space ∈ a.name.space, P space

section

variable {P : Namespace → Prop}

theorem WellBound.hasOnly (hx : ∀ uri, P ⟨some "xml", uri⟩) {bs : List Namespace} {n : Node}
    (h : WellBound bs n) (hb : ∀ space ∈ bs, P space)
    (hd : n.All fun tag => ∀ space ∈ tag.declared, P space) : n.All (Tag.HasOnly P) := by
  induction h with
  | leaf hl => exact all_leaf hl
  | @element bs tag ns ht _ ih =>
    obtain ⟨ho, hc⟩ := all_element.mp hd
    have hal : ∀ space ∈ tag.declared ++ bs, P space := forall_mem_append.mpr ⟨ho, hb⟩
    have hr : ∀ space, Resolves (tag.declared ++ bs) space → P space := by
      rintro ⟨short, uri⟩ (rfl | ⟨b, hf, rfl⟩)
      · exact hx uri
      · have hsh : b.short = short := by simpa using find?_some hf
        exact hsh ▸ hal b (mem_of_find?_eq_some hf)
    refine all_element.mpr ⟨⟨⟨ho, fun space hs => ?_⟩, fun a ha space hs => ?_⟩, fun n hn => ih n hn hal (hc n hn)⟩
    · exact hr space (ht.spaces space (mem_append_left _ (mem_toList.mpr hs)))
    · exact hr space (ht.spaces space (mem_append_right _ (mem_filterMap.mpr ⟨a, ha, hs⟩)))

/-! ### New names -/

theorem byUri?_hasOnly (hP : IsSpaceClass P) (hsc : ∀ l ∈ sc, l.HasOnly P) {uri : String}
    {forAttribute : Bool} (h : sc.byUri? uri forAttribute = some space) : P space := by
  rw [Scope.byUri?] at h
  split at h
  · rw [← some.inj h]
    exact hP.xml
  · have hm := mem_of_find?_eq_some h
    unfold Scope.candidates at hm
    split at hm
    · cases hm
    · next t o =>
      rcases mem_append.mp (mem_filter.mp hm).1 with hin | ho
      · exact (hsc t (mem_cons_self ..)).declared space hin
      · obtain ⟨l, hl, hs⟩ := mem_flatMap.mp ho
        have ha := hsc l (mem_cons_of_mem _ hl)
        rcases mem_append.mp hs with hs | hs
        · exact ha.declared space hs
        · exact ha.space space (mem_toList.mp hs)

theorem coinShort_eq (sc : Scope) : ∀ k coined : Nat, ∃ n : Nat, (coinShort sc k coined).1 = "ns" ++ toString n
  | 0, coined => ⟨coined, by rw [coinShort]⟩
  | k + 1, coined => by
    rw [coinShort]
    split
    · exact coinShort_eq sc k (coined + 1)
    · exact ⟨coined, rfl⟩

theorem claim_hasOnly (hP : IsSpaceClass P) (hsc : ∀ l ∈ sc, l.HasOnly P) (uri : String)
    {hin : Option String} (hh : ∀ short ∈ hin, P ⟨some short, uri⟩) (forAttribute : Bool) (coined : Nat) :
    P (sc.claim uri hin forAttribute coined).1 ∧ ∀ space ∈ (sc.claim uri hin forAttribute coined).2.1, P space := by
  have hc : P ⟨some (coinShort sc (sc.size + 1) coined).1, uri⟩ := by
    obtain ⟨n, hn⟩ := coinShort_eq sc (sc.size + 1) coined
    rw [hn]
    exact hP.coined n uri
  rw [Scope.claim]
  split
  · next space hsp => exact ⟨byUri?_hasOnly hP hsc hsp, by simp⟩
  · split
    · next short hs =>
      have hg : P ⟨some short, uri⟩ := by
        cases hin with
        | some g =>
          obtain rfl : g = short := by simpa using hs
          exact hh g rfl
        | none => exact hP.familiar (by simpa using hs)
      split
      · simpa using hc
      · simpa using hg
    · simpa using hc

theorem attributes_putAttribute {name : Name} (hn : ∀ space ∈ name.space, P space) (v : String) :
    ∀ {ats : List Attribute}, (∀ a ∈ ats, ∀ space ∈ a.name.space, P space) →
    ∀ a ∈ putAttribute name v ats, ∀ space ∈ a.name.space, P space
  | [], _, a, ha => by
    obtain rfl := mem_singleton.mp ha
    exact hn
  | b :: tl, h, a, ha => by
    rw [putAttribute] at ha
    have hr : ∀ a ∈ tl, ∀ space ∈ a.name.space, P space := fun a ha => h a (mem_cons_of_mem _ ha)
    split at ha
    · rcases mem_cons.mp ha with rfl | ha
      · exact hn
      · exact hr a ha
    · rcases mem_cons.mp ha with rfl | ha
      · exact h a (mem_cons_self ..)
      · exact attributes_putAttribute hn v hr a ha

/-- A tag with namespaces of a class that has all declarations of another tag. -/
structure Tag.Grows (P : Namespace → Prop) (tag tag' : Tag) : Prop where
  hasOnly : tag'.HasOnly P
  declared : ∀ space ∈ tag.declared, space ∈ tag'.declared

theorem Tag.HasOnly.grows (h : tag.HasOnly P) : tag.Grows P tag := ⟨h, fun _ hs => hs⟩

theorem Tag.Grows.trans {tag' tag'' : Tag} (h : tag.Grows P tag') (h' : tag'.Grows P tag'') :
    tag.Grows P tag'' := ⟨h'.hasOnly, fun sp hs => h'.declared sp (h.declared sp hs)⟩

theorem setIn_grows (hP : IsSpaceClass P) (ho : ∀ ly ∈ o, ly.HasOnly P) (ht : tag.HasOnly P)
    (coined : Nat) (l : Label) (v : String) : tag.Grows P (tag.setIn o coined l v).1 := by
  obtain ⟨uri, s⟩ := l
  cases uri with
  | none =>
    refine ⟨⟨ht.layer, ?_⟩, fun sp hs => hs⟩
    exact attributes_putAttribute nofun v ht.attributes
  | some uri =>
    have hsc : ∀ ly ∈ tag.layer :: o, ly.HasOnly P := by
      intro ly hl
      rcases mem_cons.mp hl with rfl | hl
      · exact ht.layer
      · exact ho ly hl
    have hh : ∀ sh ∈ none, P ⟨some sh, uri⟩ := nofun
    obtain ⟨hc, ha⟩ := claim_hasOnly hP hsc uri hh true coined
    refine ⟨⟨⟨fun sp hs => ?_, ht.layer.space⟩, ?_⟩, fun sp hs => mem_append_left _ hs⟩
    · exact (mem_append.mp hs).elim (ht.layer.declared sp) (ha sp)
    · refine attributes_putAttribute (fun sp hs => ?_) v ht.attributes
      exact mem_some.mp hs ▸ hc

theorem writeValue_grows (hP : IsSpaceClass P) (ho : ∀ ly ∈ o, ly.HasOnly P) (ht : tag.HasOnly P)
    (a : Label × DraftValue) : Gives (Draft.writeValue o tag a) (tag.Grows P) := by
  intro supply
  obtain ⟨l, v⟩ := a
  cases v with
  | text s => exact setIn_grows hP ho ht supply.coined l s
  | newId => exact setIn_grows hP ho ht supply.coined l (madeUpId supply.nextId)

theorem writeValues_grows (hP : IsSpaceClass P) (ho : ∀ l ∈ o, l.HasOnly P) :
    ∀ {ats : List (Label × DraftValue)} {tag : Tag}, tag.HasOnly P →
    Gives (ats.foldlM (Draft.writeValue o) tag) (tag.Grows P)
  | [], tag, ht => Gives.pure ht.grows
  | a :: tl, tag, ht => by
    refine (writeValue_grows hP ho ht a).bind fun tag₁ h₁ => ?_
    exact (writeValues_grows hP ho h₁.hasOnly).mono fun tag₂ h₂ => h₁.trans h₂

theorem openTag_hasOnly (hP : IsSpaceClass P) {search : Scope} (hs : ∀ ly ∈ search, ly.HasOnly P)
    (l : Label) : Gives (Draft.openTag search l) (Tag.HasOnly P) := by
  intro supply
  obtain ⟨uri, s⟩ := l
  cases uri with
  | none => exact ⟨⟨nofun, nofun⟩, nofun⟩
  | some uri =>
    have hh : ∀ sh ∈ none, P ⟨some sh, uri⟩ := nofun
    obtain ⟨hc, ha⟩ := claim_hasOnly hP hs uri hh false supply.coined
    exact ⟨⟨ha, fun sp hsp => mem_some.mp hsp ▸ hc⟩, nofun⟩

theorem build_hasOnly (hP : IsSpaceClass P) {search : Scope} (hs : ∀ ly ∈ search, ly.HasOnly P)
    (ho : ∀ ly ∈ o, ly.HasOnly P) {l : Label} {ats : List (Label × DraftValue)}
    {ds : List Draft} (hd : ∀ {o : Scope}, (∀ ly ∈ o, ly.HasOnly P) →
      Gives (Draft.settleAll o ds) fun ns => ∀ n ∈ ns, n.All (Tag.HasOnly P)) :
    Gives (Draft.build search o l ats ds) (Node.All (Tag.HasOnly P)) := by
  refine (openTag_hasOnly hP hs l).bind fun tag ht => ?_
  refine (writeValues_grows hP ho ht).bind fun tag' ht' => ?_
  refine (hd (forall_mem_cons.mpr ⟨ht'.hasOnly.layer, ho⟩)).bind fun ns hn => ?_
  exact Gives.pure (all_element.mpr ⟨ht'.hasOnly, hn⟩)

mutual

theorem settle_hasOnly (hP : IsSpaceClass P) : ∀ (d : Draft) {o : Scope},
    (∀ ly ∈ o, ly.HasOnly P) → Gives (d.settle o) (Node.All (Tag.HasOnly P))
  | .text s, o, _ => Gives.pure (all_leaf rfl)
  | .element l ats ns, o, ho => by
    have he : Layer.HasOnly P ⟨[], none⟩ := ⟨by simp, by simp⟩
    exact build_hasOnly hP (forall_mem_cons.mpr ⟨he, ho⟩) ho (settleAll_hasOnly hP ns)

theorem settleAll_hasOnly (hP : IsSpaceClass P) : ∀ (ds : List Draft) {o : Scope},
    (∀ l ∈ o, l.HasOnly P) → Gives (Draft.settleAll o ds) fun ns => ∀ n ∈ ns, n.All (Tag.HasOnly P)
  | [], o, _ => Gives.pure nofun
  | d :: tl, o, ho => by
    refine (settle_hasOnly hP d ho).bind fun n hno => ?_
    refine (settleAll_hasOnly hP tl ho).bind fun ns hn => ?_
    exact Gives.pure (forall_mem_cons.mpr ⟨hno, hn⟩)

end

theorem settleFirst_hasOnly (hP : IsSpaceClass P) (d : Draft) (hs : ∀ ly ∈ sc, ly.HasOnly P) :
    Gives (d.settleFirst sc) (Node.All (Tag.HasOnly P)) := by
  cases d with
  | text s => exact Gives.pure (all_leaf rfl)
  | element l ats ns =>
    exact build_hasOnly hP hs hs (settleAll_hasOnly hP ns)

/-! ### Edits -/

/-- A changed element has namespaces of a class only, and none of its declarations is gone. -/
structure GrowsTo (P : Namespace → Prop) (tag : Tag) (r : Tag × List Node) : Prop where
  tag : tag.Grows P r.1
  content : ∀ node ∈ r.2, node.All (Tag.HasOnly P)

section

variable {quiet q : Label → Prop}

theorem applyEdits_grows {es : List Edit} (h : ∀ e ∈ es, ∀ o tag ns,
    (∀ l ∈ o, Layer.HasOnly P l) → tag.HasOnly P → (∀ n ∈ ns, n.All (Tag.HasOnly P)) →
    Gives (Edit.apply o tag ns e) (GrowsTo P tag)) :
    ∀ {o : Scope} {tag : Tag} {ns : List Node}, (∀ l ∈ o, l.HasOnly P) → tag.HasOnly P →
    (∀ n ∈ ns, n.All (Tag.HasOnly P)) → Gives (applyEdits o tag ns es) (GrowsTo P tag) := by
  intro o tag ns ho ht hc
  refine applyEdits_invariant (I := fun tag' ns' => GrowsTo P tag (tag', ns'))
    (fun e he tag' ns' h₁ => ?_) ⟨ht.grows, hc⟩
  refine (h e he o tag' ns' ho h₁.tag.hasOnly h₁.content).mono fun r h₂ => ?_
  exact ⟨h₁.tag.trans h₂.tag, h₂.content⟩

theorem QuietEdit.apply_grows (hP : IsSpaceClass P) {e : Edit} (h : QuietEdit quiet e) :
    ∀ (o : Scope) (tag : Tag) (ns : List Node), (∀ ly ∈ o, ly.HasOnly P) → tag.HasOnly P →
    (∀ n ∈ ns, n.All (Tag.HasOnly P)) → Gives (Edit.apply o tag ns e) (GrowsTo P tag) := by
  intro o tag ns ho ht hc
  induction h generalizing o tag ns with rw [Edit.apply]
  | @set l v _ =>
    refine (writeValue_grows hP ho ht (l, .text v)).bind fun tag' ht' => Gives.pure ?_
    exact ⟨ht', hc⟩
  | @setMissing l v _ =>
    split
    · exact Gives.pure ⟨ht.grows, hc⟩
    · refine (writeValue_grows hP ho ht (l, .text v)).bind fun tag' ht' => Gives.pure ?_
      exact ⟨ht', hc⟩
  | setText s =>
    refine Gives.pure ⟨ht.grows, fun n hn => ?_⟩
    rcases mem_cons.mp hn with rfl | hn
    · exact all_leaf rfl
    · exact hc n ((dropWhile_sublist _).subset hn)
  | clear l =>
    refine Gives.pure ⟨ht.grows, fun n hn => ?_⟩
    exact hc n ((removeNodes_sublist _ ns false).subset hn)
  | @append d _ =>
    refine (settle_hasOnly hP d (forall_mem_cons.mpr ⟨ht.layer, ho⟩)).bind fun new hne => ?_
    exact Gives.pure ⟨ht.grows, forall_mem_append.mpr ⟨hc, forall_mem_singleton.mpr hne⟩⟩
  | @ensure d _ =>
    split
    · refine (settle_hasOnly hP d (forall_mem_cons.mpr ⟨ht.layer, ho⟩)).bind fun new hne => ?_
      exact Gives.pure ⟨ht.grows, forall_mem_append.mpr ⟨hc, forall_mem_singleton.mpr hne⟩⟩
    · exact Gives.pure ⟨ht.grows, hc⟩
  | @ensureFirst d _ =>
    split
    · refine (settleFirst_hasOnly hP d (forall_mem_cons.mpr ⟨ht.layer, ho⟩)).bind
        fun new hne => Gives.pure ⟨ht.grows, fun n hn => ?_⟩
      rcases mem_insertBefore hn with rfl | hn
      · exact hne
      · exact hc n hn
    · exact Gives.pure ⟨ht.grows, hc⟩
  | @within l edits _ _ ih =>
    split
    · exact Gives.pure ⟨ht.grows, hc⟩
    · next pre childTag t post hs =>
      obtain ⟨rfl, -, -⟩ := splitAtChild?_eq_some hs
      obtain ⟨hb, hre⟩ := forall_mem_append.mp hc
      obtain ⟨hchi, ha⟩ := forall_mem_cons.mp hre
      obtain ⟨hch, hin⟩ := all_element.mp hchi
      refine (applyEdits_grows ih (forall_mem_cons.mpr ⟨ht.layer, ho⟩) hch hin).bind
        fun r hr => Gives.pure ⟨ht.grows, ?_⟩
      have hne := all_element.mpr ⟨hr.tag.hasOnly, hr.content⟩
      exact forall_mem_append.mpr ⟨hb, forall_mem_cons.mpr ⟨hne, ha⟩⟩

/-! ### Rounds of jobs -/

/-- A node with namespaces of a class, with all declarations that another node has at its top. -/
inductive Node.Grows (P : Namespace → Prop) : Node → Node → Prop
  | leaf {node : Node} : node.element? = none → Node.Grows P node node
  | element {tag tag' : Tag} {content content' : List Node} : GrowsTo P tag (tag', content') →
      Node.Grows P (.element tag content) (.element tag' content')

theorem Node.Grows.all {n n' : Node} (h : n.Grows P n') : n'.All (Tag.HasOnly P) := by
  cases h with
  | leaf hl => exact all_leaf hl
  | element h => exact all_element.mpr ⟨h.tag.hasOnly, h.content⟩

theorem Node.Grows.declared {e e' : Element} (h : e.node.Grows P e'.node) :
    ∀ sp ∈ e.tag.declared, sp ∈ e'.tag.declared := by
  obtain ⟨tag', ns'⟩ := e'
  cases h with
  | leaf hl => cases hl
  | element h => exact h.tag.declared

theorem applyEdits_filter_grows (hP : IsSpaceClass P) {es : List Edit} (h : ∀ e ∈ es, QuietEdit q e)
    (p : Edit → Bool) {ns : List Node} (ho : ∀ l ∈ o, l.HasOnly P) (ht : tag.HasOnly P)
    (hc : ∀ n ∈ ns, n.All (Tag.HasOnly P)) : Gives (applyEdits o tag ns (es.filter p)) (GrowsTo P tag) :=
  applyEdits_grows (fun e he => (h e (mem_filter.mp he).1).apply_grows hP) ho ht hc

mutual

theorem perform_grows (hP : IsSpaceClass P) : ∀ (n : Node) {o : Scope} {js : List Job},
    n.Fits (fun _ own => ∀ e ∈ own, QuietEdit q e) js → (∀ l ∈ o, l.HasOnly P) →
    n.All (Tag.HasOnly P) → Gives (n.perform o js) (n.Grows P)
  | .element tag ns, o, js, hj, ho, hn => by
    obtain ⟨ht, hc⟩ := all_element.mp hn
    rw [perform_element]
    refine (applyEdits_filter_grows hP hj.1 _ ho ht (forall_mem_nil _)).bind fun r₁ h₁ => ?_
    refine (performFrom_grows hP ns 0 hj.2 (forall_mem_cons.mpr ⟨h₁.tag.hasOnly.layer, ho⟩) hc).bind fun t hin => ?_
    refine (applyEdits_filter_grows hP hj.1 _ ho h₁.tag.hasOnly hin).bind fun r₂ h₂ => ?_
    exact Gives.pure (.element ⟨h₁.tag.trans h₂.tag, h₂.content⟩)
  | .text _, o, js, _, _, _ | .comment _, o, js, _, _, _ | .instruction _ _, o, js, _, _, _ => by
    rw [Node.perform]
    · exact Gives.pure (.leaf rfl)
    · exact nofun

theorem performFrom_grows (hP : IsSpaceClass P) : ∀ (ns : List Node) {o : Scope} {js : List Job}
    (i : Nat), FitsFrom (fun _ own => ∀ e ∈ own, QuietEdit q e) js i ns →
    (∀ l ∈ o, l.HasOnly P) → (∀ n ∈ ns, n.All (Tag.HasOnly P)) →
    Gives (performFrom o js i ns) fun ns' => ∀ n ∈ ns', n.All (Tag.HasOnly P)
  | [], o, js, i, _, _, _ => Gives.pure nofun
  | n :: tl, o, js, i, hj, ho, hc => by
    obtain ⟨hn, hr⟩ := forall_mem_cons.mp hc
    refine (perform_grows hP n hj.1 ho hn).bind fun n' hn' => ?_
    refine (performFrom_grows hP tl (i + 1) hj.2 ho hr).bind fun tl' hr' => ?_
    exact Gives.pure (forall_mem_cons.mpr ⟨hn'.all, hr'⟩)

end

end

/-! ### Declarations put in order -/

/-- All namespaces that a renaming leads to are of a class. -/
def Renaming.HasOnly (P : Namespace → Prop) (renames : Renaming) : Prop := ∀ r ∈ renames, P r.2

theorem Renaming.HasOnly.of {rs : Renaming} (h : rs.HasOnly P) (hs : P sp) : P (rs.of sp) := by
  rw [Renaming.of]
  cases hf : rs.lookup sp.short with
  | none => exact hs
  | some f =>
    obtain ⟨pre, post, rfl, -⟩ := lookup_eq_some_iff.mp hf
    exact h (sp.short, f) (by simp)

theorem keepNew_hasOnly (hP : IsSpaceClass P) (ho : ∀ l ∈ o, l.HasOnly P) : ∀ (d : List Namespace), (∀ sp ∈ d, P sp) →
    (∀ sp ∈ (keepNew o d).1, P sp) ∧ (keepNew o d).2.HasOnly P
  | [], _ => ⟨nofun, nofun⟩
  | sp :: tl, h => by
    obtain ⟨hs, hre⟩ := forall_mem_cons.mp h
    obtain ⟨hke, hr⟩ := keepNew_hasOnly hP ho tl hre
    cases hk : o.byUri? sp.uri false with
    | some known =>
      simp only [keepNew, hk]
      exact ⟨hke, forall_mem_cons.mpr ⟨byUri?_hasOnly hP ho hk, hr⟩⟩
    | none =>
      simp only [keepNew, hk]
      exact ⟨forall_mem_cons.mpr ⟨hs, hke⟩, forall_mem_cons.mpr ⟨hs, hr⟩⟩

/-- A later state of the pass has namespaces of a class only, and none of its declarations is gone. -/
structure Rebinding.Grows (P : Namespace → Prop) (state state' : Rebinding) : Prop where
  hasOnly : ∀ space ∈ state'.declared, P space
  declared : ∀ space ∈ state.declared, space ∈ state'.declared

theorem Rebinding.Grows.refl (h : ∀ sp ∈ state.declared, P sp) : state.Grows P state := ⟨h, fun _ hs => hs⟩

theorem Rebinding.Grows.trans {state' state'' : Rebinding} (h : s.Grows P state') (h' : state'.Grows P state'') :
    s.Grows P state'' :=
  ⟨h'.hasOnly, fun sp hs => h'.declared sp (h.declared sp hs)⟩

section

variable {ar : Scope} {top : Option Namespace} {rs : Renaming}

theorem rebindAttribute_hasOnly (hP : IsSpaceClass P) (har : ∀ l ∈ ar, l.HasOnly P)
    (ht : ∀ space ∈ top, P space) (hr : rs.HasOnly P) (hs : ∀ space ∈ state.declared, P space)
    {a : Attribute} (ha : ∀ space ∈ a.name.space, P space) :
    (∀ space ∈ (rebindAttribute ar top rs state a).1.name.space, P space) ∧
    state.Grows P (rebindAttribute ar top rs state a).2 := by
  unfold rebindAttribute
  cases hsp : a.name.space with
  | none => exact ⟨ha, .refl hs⟩
  | some space =>
    have ho : P space := ha space hsp
    simp only
    split
    · exact ⟨fun _ h => mem_some.mp h ▸ hr.of ho, .refl hs⟩
    · have hl : Layer.HasOnly P ⟨state.declared, top⟩ := ⟨hs, ht⟩
      have hh : ∀ s ∈ space.short, P ⟨some s, space.uri⟩ := by
        intro s hsh
        rw [← mem_def.mp hsh]
        exact ho
      obtain ⟨hc, had⟩ := claim_hasOnly hP (forall_mem_cons.mpr ⟨hl, har⟩) space.uri hh true state.coined
      exact ⟨fun _ h => mem_some.mp h ▸ hc, forall_mem_append.mpr ⟨hs, had⟩, fun _ h => mem_append_left _ h⟩

theorem rebindAttributes_hasOnly (hP : IsSpaceClass P) (har : ∀ l ∈ ar, l.HasOnly P)
    (ht : ∀ sp ∈ top, P sp) (hr : rs.HasOnly P) :
    ∀ {ats : List Attribute} {s : Rebinding}, (∀ sp ∈ s.declared, P sp) →
    (∀ a ∈ ats, ∀ sp ∈ a.name.space, P sp) →
    (∀ a ∈ (rebindAttributes ar top rs s ats).1, ∀ sp ∈ a.name.space, P sp) ∧
    s.Grows P (rebindAttributes ar top rs s ats).2
  | [], s, hs, _ => ⟨nofun, .refl hs⟩
  | a :: tl, s, hs, h => by
    obtain ⟨ha, hre⟩ := forall_mem_cons.mp h
    obtain ⟨hf, hs₁⟩ := rebindAttribute_hasOnly hP har ht hr hs ha
    obtain ⟨ho, hs₂⟩ := rebindAttributes_hasOnly hP har ht hr hs₁.hasOnly hre
    exact ⟨forall_mem_cons.mpr ⟨hf, ho⟩, hs₁.trans hs₂⟩

theorem map_of_hasOnly {f : Option Namespace} (hf : ∀ space ∈ f, P space)
    (hr : rs.HasOnly P) : ∀ space ∈ f.map rs.of, P space := by
  intro new hn
  obtain ⟨old, ho, rfl⟩ := map_eq_some_iff.mp hn
  exact hr.of (hf old ho)

theorem rebindContent_hasOnly (hP : IsSpaceClass P) (ha : ∀ l ∈ ar, l.HasOnly P)
    (ht : ∀ sp ∈ top, P sp) : ∀ (ns : List Node) {t : Scope} {rs : Renaming}
    {s : Rebinding}, (∀ l ∈ t, l.HasOnly P) → rs.HasOnly P →
    (∀ sp ∈ s.declared, P sp) → (∀ n ∈ ns, n.All (Tag.HasOnly P)) →
    (∀ n ∈ (rebindContent ar top t rs s ns).1, n.All (Tag.HasOnly P)) ∧
    s.Grows P (rebindContent ar top t rs s ns).2
  | [], _, _, _, _, _, hs, _ => ⟨nofun, .refl hs⟩
  | .element tag ns :: tl, t, rs, s, hin, hr, hs, hc => by
    obtain ⟨hn, hre⟩ := forall_mem_cons.mp hc
    obtain ⟨hta, hc⟩ := all_element.mp hn
    have ho : ∀ l ∈ t ++ ⟨s.declared, top⟩ :: ar, l.HasOnly P :=
      forall_mem_append.mpr ⟨hin, forall_mem_cons.mpr ⟨⟨hs, ht⟩, ha⟩⟩
    obtain ⟨hk, hne⟩ := keepNew_hasOnly hP ho tag.declared hta.layer.declared
    have hr' : Renaming.HasOnly P ((keepNew (t ++ ⟨s.declared, top⟩ :: ar) tag.declared).2 ++ rs) :=
      forall_mem_append.mpr ⟨hne, hr⟩
    have hna := map_of_hasOnly hta.layer.space hr'
    have hl : Layer.HasOnly P ⟨_, _⟩ := ⟨hk, hna⟩
    obtain ⟨hat, hs₁⟩ := rebindAttributes_hasOnly hP ha ht hr' hs hta.attributes
    obtain ⟨hi', hs₂⟩ := rebindContent_hasOnly hP ha ht ns (forall_mem_cons.mpr ⟨hl, hin⟩) hr' hs₁.hasOnly hc
    obtain ⟨ho, hs₃⟩ := rebindContent_hasOnly hP ha ht tl hin hr hs₂.hasOnly hre
    exact ⟨forall_mem_cons.mpr ⟨all_element.mpr ⟨⟨hl, hat⟩, hi'⟩, ho⟩, (hs₁.trans hs₂).trans hs₃⟩
  | .text _ :: tl, _, _, _, hin, hr, hs, hc
  | .comment _ :: tl, _, _, _, hin, hr, hs, hc
  | .instruction _ _ :: tl, _, _, _, hin, hr, hs, hc =>
    have hre := rebindContent_hasOnly hP ha ht tl hin hr hs (forall_mem_cons.mp hc).2
    ⟨forall_mem_cons.mpr ⟨all_leaf rfl, hre.1⟩, hre.2⟩

end

/-- An element at the top keeps the declarations of all URIs but that of the reserved namespace. -/
theorem keepNew_top : ∀ {d : List Namespace} {sp : Namespace}, sp ∈ d → sp.uri ≠ xmlUri → sp ∈ (keepNew [] d).1
  | other :: tl, sp, hs, hu => by
    rw [keepNew]
    rcases mem_cons.mp hs with rfl | hs
    · have hn : Scope.byUri? [] sp.uri false = none := by
        rw [Scope.byUri?, if_neg (by simpa using hu)]
        rfl
      simp [hn]
    · have ih := keepNew_top hs hu
      cases hk : Scope.byUri? [] other.uri false with
      | none => simp [ih]
      | some known => simpa using ih

/-- The pass at the top of a tree brings no other namespaces in, and declarations stay. -/
theorem rebind_hasOnly (hP : IsSpaceClass P) (coined : Nat) {e : Element} (he : e.node.All (Tag.HasOnly P)) :
    (e.rebind [] coined).1.node.All (Tag.HasOnly P) ∧
    ∀ space ∈ e.tag.declared, space.uri ≠ xmlUri → space ∈ (e.rebind [] coined).1.tag.declared := by
  obtain ⟨ht, hc⟩ := all_element.mp he
  have hn : ∀ l ∈ ([] : Scope), l.HasOnly P := forall_mem_nil _
  obtain ⟨hk, hr⟩ := keepNew_hasOnly hP hn e.tag.declared ht.layer.declared
  have hna := map_of_hasOnly ht.layer.space hr
  have hstate₀ : ∀ space ∈ (Rebinding.mk (keepNew [] e.tag.declared).1 coined).declared, P space := hk
  obtain ⟨ha, hs₁⟩ := rebindAttributes_hasOnly hP hn hna hr hstate₀ ht.attributes
  obtain ⟨hin, hs₂⟩ := rebindContent_hasOnly hP hn hna e.content hn hr hs₁.hasOnly hc
  have hs := hs₁.trans hs₂
  refine ⟨all_element.mpr ⟨⟨⟨hs.hasOnly, hna⟩, ha⟩, hin⟩, fun space hsp hu => ?_⟩
  exact hs.declared space (keepNew_top hsp hu)

mutual

theorem pruneNode_hasOnly (keep : List String) : ∀ n : Node, n.All (Tag.HasOnly P) →
    (pruneNode keep n).1.All (Tag.HasOnly P)
  | .element tag ns, h => by
    obtain ⟨ht, hc⟩ := all_element.mp h
    refine all_element.mpr ⟨⟨⟨fun sp hs => ?_, ht.layer.space⟩, ht.attributes⟩, pruneContent_hasOnly keep ns hc⟩
    exact ht.layer.declared sp (mem_filter.mp hs).1
  | .text _, _ | .comment _, _ | .instruction _ _, _ => by exact all_leaf rfl

theorem pruneContent_hasOnly (keep : List String) : ∀ ns : List Node, (∀ n ∈ ns, n.All (Tag.HasOnly P)) →
    ∀ n ∈ (pruneContent keep ns).1, n.All (Tag.HasOnly P)
  | [], _ => by exact nofun
  | n :: tl, h => by
    obtain ⟨hn, hr⟩ := forall_mem_cons.mp h
    exact forall_mem_cons.mpr ⟨pruneNode_hasOnly keep n hn, pruneContent_hasOnly keep tl hr⟩

end

theorem prune_declared (keep : List String) (e : Element) (hs : space ∈ e.tag.declared) {s : String}
    (hsh : space.short = some s) (hk : s ∈ keep) : space ∈ (e.prune keep).tag.declared := by
  refine mem_filter.mpr ⟨hs, ?_⟩
  simp [hsh, hk]

/-- A namespace that is to be declared has its short form declared, by it or by another namespace. -/
theorem foldl_declare_short {s : String} (hx : s ≠ "xml") : ∀ {ss : List Namespace} (d : List Namespace),
    ((∃ sp ∈ ss, sp.short = some s) ∨ ∃ sp ∈ d, sp.short = some s) →
    ∃ sp ∈ ss.foldl declare d, sp.short = some s
  | [], _, h => h.resolve_left fun ⟨_, hm, _⟩ => nomatch hm
  | sp :: tl, d, h => by
    rw [foldl_cons]
    refine foldl_declare_short hx _ ?_
    by_cases hsp : sp.short = some s
    · -- either the short form is taken, or the declaration is added
      right
      rw [declare]
      split
      · next ht =>
        rw [hsp] at ht
        simpa [hx] using ht
      · exact ⟨sp, by simp, hsp⟩
    · rcases h with ⟨f, hf, hs⟩ | ⟨f, hf, hs⟩
      · rcases mem_cons.mp hf with rfl | hf
        · exact absurd hs hsp
        · exact Or.inl ⟨f, hf, hs⟩
      · right
        rw [declare]
        split
        · exact ⟨f, hf, hs⟩
        · exact ⟨f, mem_append_left _ hf, hs⟩

/-- Declarations put in order bring no other namespaces in, and all short forms that were asked for are
    declared. -/
theorem ensureNamespaces_hasOnly (hP : IsSpaceClass P) {d : Document} (hd : d.root.node.All (Tag.HasOnly P))
    {ss : List Namespace} (hsp : ∀ space ∈ ss, P space) : (d.ensureNamespaces ss).root.node.All (Tag.HasOnly P) ∧
    ∀ short : String, short ≠ "xml" → (∃ space ∈ ss, space.short = some short) →
      (∀ space, P space → space.short = some short → space.uri ≠ xmlUri) →
      ∃ space ∈ (d.ensureNamespaces ss).root.tag.declared, space.short = some short := by
  obtain ⟨ht, hc⟩ := all_element.mp hd
  have hde : ∀ space ∈ ss.foldl declare d.root.tag.declared, P space := by
    obtain ⟨ms, hmo, hm⟩ := foldl_declare ss d.root.tag.declared
    rw [hmo]
    exact forall_mem_append.mpr ⟨ht.layer.declared, fun space hs => hsp space (hm space hs)⟩
  have hr : (Element.node ⟨{ d.root.tag with declared := ss.foldl declare d.root.tag.declared },
      d.root.content⟩).All (Tag.HasOnly P) :=
    all_element.mpr ⟨⟨⟨hde, ht.layer.space⟩, ht.attributes⟩, hc⟩
  obtain ⟨hal, hst⟩ := rebind_hasOnly hP d.coined hr
  refine ⟨prune_node _ _ ▸ pruneNode_hasOnly _ _ hal, fun short hx ha hu => ?_⟩
  obtain ⟨space, hs, hsh⟩ := foldl_declare_short hx d.root.tag.declared (Or.inl ha)
  refine ⟨space, prune_declared _ _ (hst space hs (hu space (hde space hs) hsh)) hsh ?_, hsh⟩
  obtain ⟨asked, hm, ha⟩ := ha
  exact mem_filterMap.mpr ⟨asked, mem_append_right _ hm, ha⟩

end

end ProcessForge.Xml
