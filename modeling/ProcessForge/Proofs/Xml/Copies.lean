import ProcessForge.Proofs.Xml.Children
import ProcessForge.Proofs.Xml.TagLaws

/-! Copies of elements in other trees. A copy declares the namespaces that its original uses and does not declare, so
    it has the same labels, values and texts wherever it stands. -/

namespace ProcessForge.Xml

open List

variable {outer t : List Namespace} {space : Namespace}

/-! ### Namespaces that are declared outside -/

/-- The namespace that a short form is bound to. -/
def boundTo? (bindings : List Namespace) (short : Option String) : Option Namespace :=
  bindings.find? fun b => b.short == short

/-- A namespace is the one that its short form is bound to outside. -/
def IsOuter (outer : List Namespace) (space : Namespace) : Prop := boundTo? outer space.short = some space

theorem boundTo?_append (s : Option String) :
    boundTo? (t ++ outer) s = (boundTo? t s).or (boundTo? outer s) := find?_append

theorem boundTo?_eq_none {s : Option String} : boundTo? t s = none ↔ (t.map Namespace.short).contains s = false := by
  simp [boundTo?, find?_eq_none]

theorem Resolves.isOuter (h : Resolves (t ++ outer) space) (hx : space.short ≠ some "xml")
    (hn : boundTo? t space.short = none) : IsOuter outer space := by
  rcases h with h | ⟨b, hf, hu⟩
  · exact absurd h hx
  · have hs : b.short = space.short := by simpa using find?_some hf
    rw [← boundTo?, boundTo?_append, hn] at hf
    obtain ⟨short', uri'⟩ := b
    cases hs
    cases hu
    exact hf

/-- Namespaces resolve as before if the short forms that are not bound further in have the same meaning. -/
theorem Resolves.congr {o' : List Namespace} (h : Resolves (t ++ outer) space)
    (hs : space.short ≠ some "xml" → boundTo? t space.short = none →
      boundTo? o' space.short = boundTo? outer space.short) : Resolves (t ++ o') space := by
  rcases h with h | ⟨b, hf, hu⟩
  · exact .inl h
  by_cases hx : space.short = some "xml"
  · exact .inl hx
  refine .inr ⟨b, ?_, hu⟩
  rw [← boundTo?, boundTo?_append] at hf ⊢
  cases hin : boundTo? t space.short with
  | some c => rwa [hin] at hf
  | none => rwa [hs hx hin, ← hin]

theorem IsOuter.boundTo? {ss : List Namespace} (h : ∀ b ∈ ss, IsOuter outer b) (hs : space ∈ ss) :
    boundTo? ss space.short = boundTo? outer space.short := by
  cases hf : Xml.boundTo? ss space.short with
  | none => exact absurd (mem_map_of_mem hs) (by simpa using boundTo?_eq_none.mp hf)
  | some f =>
    have hsh : f.short = space.short := by simpa using find?_some hf
    rw [← hsh, h f (mem_of_find?_eq_some hf)]

theorem foldl_addSpace : ∀ {ss f : List Namespace}, (∀ b ∈ f, IsOuter outer b) →
    (∀ b ∈ ss, IsOuter outer b) → (∀ b ∈ ss.foldl addSpace f, IsOuter outer b) ∧
      f ⊆ ss.foldl addSpace f ∧ ss ⊆ ss.foldl addSpace f
  | [], f, h, _ => ⟨h, List.Subset.refl _, nil_subset _⟩
  | space :: tl, f, h, hs => by
    rw [forall_mem_cons] at hs
    obtain ⟨ha, hsu, hm⟩ : (∀ b ∈ addSpace f space, IsOuter outer b) ∧ f ⊆ addSpace f space ∧
        space ∈ addSpace f space := by
      rw [addSpace]
      split
      · next han =>
        obtain ⟨b, hb, hsh⟩ := any_eq_true.mp han
        obtain rfl : b = space :=
          Option.some.inj ((h b hb).symm.trans (beq_iff_eq.mp hsh ▸ hs.1))
        exact ⟨h, List.Subset.refl _, hb⟩
      · exact ⟨forall_mem_append.mpr ⟨h, forall_mem_singleton.mpr hs.1⟩, subset_append_left .., by simp⟩
    obtain ⟨hal, hs', hr⟩ := foldl_addSpace ha hs.2
    exact ⟨hal, List.Subset.trans hsu hs', cons_subset.mpr ⟨hs' hm, hr⟩⟩

mutual

/-- The namespaces that are found are declared outside, and with them alone a node is still well-bound. -/
theorem freeSpaces_spec : ∀ (n : Node) {t f : List Namespace}, (∀ b ∈ f, IsOuter outer b) →
    WellBound (t ++ outer) n → let ss := n.freeSpaces (t.map Namespace.short) f
      (∀ b ∈ ss, IsOuter outer b) ∧ f ⊆ ss ∧
      ∀ ms, ss ⊆ ms → (∀ b ∈ ms, IsOuter outer b) → WellBound (t ++ ms) n
  | .element tag ns, t, f, hf, .element ht hc => by
    rw [← append_assoc] at hc
    have hfr : ∀ space ∈ tag.spaces.filter (fun space => space.short != some "xml" &&
        !((tag.declared ++ t).map Namespace.short).contains space.short), IsOuter outer space := by
      intro space hs
      obtain ⟨hs, ho⟩ := mem_filter.mp hs
      rw [Bool.and_eq_true, bne_iff_ne, Bool.not_eq_true'] at ho
      have hr := ht.spaces space hs
      rw [← append_assoc] at hr
      exact hr.isOuter ho.1 (boundTo?_eq_none.mpr ho.2)
    obtain ⟨hto, hsu, hu⟩ := foldl_addSpace hf hfr
    obtain ⟨ha, hs', hmo⟩ := freeSpacesOf_spec ns hto hc
    rw [map_append] at ha hs' hmo hsu hu
    refine ⟨ha, List.Subset.trans hsu hs', fun ms hsp hm => .element ⟨ht.declared, fun space hs => ?_⟩ ?_⟩
    · have hr := ht.spaces space hs
      rw [← append_assoc] at hr ⊢
      refine hr.congr fun hx hn => IsOuter.boundTo? hm (hsp (hs' (hu ?_)))
      rw [boundTo?_eq_none, map_append] at hn
      exact mem_filter.mpr ⟨hs, by rw [hn]; simpa using hx⟩
    · rw [← append_assoc]
      exact hmo ms hsp hm
  | .text _, _, _, hf, _ | .comment _, _, _, hf, _ | .instruction _ _, _, _, hf, _ => by
    rw [Node.freeSpaces]
    · exact ⟨hf, List.Subset.refl _, fun _ _ _ => .leaf rfl⟩
    · exact nofun

theorem freeSpacesOf_spec : ∀ (ns : List Node) {t f : List Namespace}, (∀ b ∈ f, IsOuter outer b) →
    (∀ n ∈ ns, WellBound (t ++ outer) n) →
    let ss := freeSpacesOf (t.map Namespace.short) f ns
    (∀ b ∈ ss, IsOuter outer b) ∧ f ⊆ ss ∧
      ∀ ms, ss ⊆ ms → (∀ b ∈ ms, IsOuter outer b) → ∀ n ∈ ns, WellBound (t ++ ms) n
  | [], _, _, hf, _ => ⟨hf, List.Subset.refl _, fun _ _ _ => forall_mem_nil _⟩
  | n :: tl, _, _, hf, h => by
    rw [forall_mem_cons] at h
    obtain ⟨hfi, hsu, hn⟩ := freeSpaces_spec n hf h.1
    obtain ⟨ha, hs', hr⟩ := freeSpacesOf_spec tl hfi h.2
    refine ⟨ha, List.Subset.trans hsu hs', fun ms hs hm => ?_⟩
    exact forall_mem_cons.mpr ⟨hn ms (List.Subset.trans hs' hs) hm, hr ms hs hm⟩

end

/-! ### Copies -/

variable (houter : ∀ b ∈ outer, Namespace.IsProper b)

include houter

theorem wellBound_selfContained {e : Element} (h : WellBound outer e.node) : WellBound [] e.selfContained.node := by
  obtain ⟨ha, -, hm⟩ := @freeSpaces_spec _ e.node [] _ (forall_mem_nil _) h
  cases hm _ (List.Subset.refl _) ha with
  | leaf hl => cases hl
  | element ht hc =>
    refine .element ⟨forall_mem_append.mpr ⟨ht.declared, fun b hb => ?_⟩, ?_⟩ ?_
    · exact houter b (mem_of_find?_eq_some (ha b hb))
    · rw [append_nil]
      exact ht.spaces
    · rw [append_nil]
      exact hc

theorem graftAll_rebound (s : Scope) {ns : List Node} (h : ∀ n ∈ ns, WellBound outer n) :
    Gives (graftAll s ns) (Forall₂ Rebound ns) := by
  induction ns with
  | nil => exact Gives.pure .nil
  | cons n tl ih =>
    rw [forall_mem_cons] at h
    cases he : n.element? with
    | none =>
      rw [graftAll_leaf s he]
      exact (ih h.2).bind fun copies hc => Gives.pure (.cons (.leaf he) hc)
    | some e =>
      rw [eq_element_of_element? he] at h ⊢
      refine Gives.bind (P := Rebound e.node) (fun supply => ?_) fun copy hco => ?_
      · exact (rebind_spec s supply.coined (wellBound_selfContained houter h.1)).of_declared
      · exact (ih h.2).bind fun copies hc => Gives.pure (.cons hco hc)

end ProcessForge.Xml
