import Mathlib.Data.List.Nodup
import ProcessForge.Proofs.Xml.Perform

/-! Drafts that are settled and attributes that are written. New names have the label that was asked for, whatever
    short form they take, and declarations that are added are of namespaces that were asked for. A draft in which no
    attribute stands twice becomes an element with these attributes in this order and no other. -/

namespace ProcessForge.Xml

open List Option

/-! ### Namespaces of new names -/

theorem byUri?_uri {sc : Scope} {uri : String} {forAttribute : Bool} {s : Namespace}
    (h : sc.byUri? uri forAttribute = some s) : s.uri = uri := by
  rw [Scope.byUri?] at h
  split at h
  · next hx =>
    rw [← some.inj h]
    exact (beq_iff_eq.mp hx).symm
  · have hm := mem_of_find?_eq_some h
    unfold Scope.candidates at hm
    split at hm
    · cases hm
    · exact beq_iff_eq.mp (mem_filter.mp hm).2

/-- The namespace for a new name, and every declaration that it needs, is of the URI. -/
theorem claim_uri (sc : Scope) (uri : String) (hin : Option String) (forAttribute : Bool)
    (coined : Nat) : (sc.claim uri hin forAttribute coined).1.uri = uri ∧
    ∀ s ∈ (sc.claim uri hin forAttribute coined).2.1, s.uri = uri := by
  rw [Scope.claim]
  split
  · next s hs => exact ⟨byUri?_uri hs, by simp⟩
  · split
    · split <;> simp
    · simp

/-! ### Writing attributes -/

theorem writeAttribute_declared (o : Scope) (tag : Tag) (l : Label) (v : String) :
    Gives (writeAttribute o tag l v) fun tag' => ∀ s ∈ tag'.declared, s ∈ tag.declared ∨ l.uri = some s.uri := by
  intro supply s hs
  obtain ⟨_ | uri, st⟩ := l
  · exact .inl hs
  · have hc := claim_uri (tag.layer :: o) uri none true supply.coined
    exact (mem_append.mp hs).imp_right fun hn => congrArg some (hc.2 s hn).symm

theorem find?_putAttribute (name : Name) (v : String) (l : Label) (attributes : List Attribute) :
    ((putAttribute name v attributes).find? fun a => a.name.label == l).map Attribute.value
      = if name.label = l then some v else (attributes.find? fun a => a.name.label == l).map Attribute.value := by
  induction attributes with
  | nil => by_cases hl : name.label = l <;> simp [putAttribute, hl]
  | cons a tl ih =>
    rw [putAttribute]
    by_cases ha : a.name.label = name.label
    · by_cases hl : name.label = l <;> simp [ha, hl]
    · by_cases hal : a.name.label = l
      · have hn : name.label ≠ l := fun h => ha (hal.trans h.symm)
        simp [hal, hn, Ne.symm hn]
      · simpa [ha, hal] using ih

/-- Labels and values of the attributes of a tag, in order. -/
def Tag.entries (tag : Tag) : List (Label × String) := tag.attributes.map fun a => (a.name.label, a.value)

section

variable {tag : Tag} {l : Label} {entry x : Label × String}

theorem value?_eq_find? (tag : Tag) (l : Label) :
    tag.value? l = (tag.entries.find? fun x => x.1 == l).map Prod.snd := by
  rw [Tag.entries, find?_map, Option.map_map]
  rfl

theorem not_mem_entries (h : (tag.value? l).isSome = false) : l ∉ tag.entries.map Prod.fst := by
  rw [value?_eq_find?, isSome_map, isSome_eq_false_iff, isNone_iff_eq_none, find?_eq_none] at h
  intro hl
  obtain ⟨x, he, rfl⟩ := mem_map.mp hl
  exact h x he (beq_self_eq_true _)

theorem putAttribute_of_not_mem {name : Name} {attributes : List Attribute}
    (h : ∀ a ∈ attributes, a.name.label ≠ name.label) (v : String) :
    putAttribute name v attributes = attributes ++ [⟨name, v⟩] := by
  induction attributes with
  | nil => rfl
  | cons a tl ih =>
    rw [forall_mem_cons] at h
    rw [putAttribute, if_neg (by simpa using h.1), ih h.2, cons_append]

theorem writeAttribute_put (o : Scope) (tag : Tag) (label : Label) (v : String) :
    Gives (writeAttribute o tag label v) fun tag' => tag'.name = tag.name ∧
      ∃ name : Name, name.label = label ∧ tag'.attributes = putAttribute name v tag.attributes := by
  intro supply
  obtain ⟨uri, s⟩ := label
  cases uri with
  | none => exact ⟨rfl, .plain s, rfl, rfl⟩
  | some uri =>
    refine ⟨rfl, ⟨some (Scope.claim (tag.layer :: o) uri none true supply.coined).1, s⟩, ?_, rfl⟩
    rw [Name.label, Name.uri?, map_some, (claim_uri (tag.layer :: o) uri none true supply.coined).1]

/-- What writing an attribute does to the values of a tag. A new attribute stands behind the others. -/
structure Tag.Written (label : Label) (value : String) (tag tag' : Tag) : Prop where
  name : tag'.name = tag.name
  value? : ∀ l, tag'.value? l = if label = l then some value else tag.value? l
  entries : label ∉ tag.entries.map Prod.fst → tag'.entries = tag.entries ++ [(label, value)]

theorem writeAttribute_written (o : Scope) (tag : Tag) (label : Label) (v : String) :
    Gives (writeAttribute o tag label v) (Tag.Written label v tag) := by
  refine (writeAttribute_put o tag label v).mono fun tag' h => ?_
  obtain ⟨hn, name, rfl, hat⟩ := h
  refine ⟨hn, fun l => ?_, fun hne => ?_⟩
  · rw [Tag.value?, hat]
    exact find?_putAttribute name v l tag.attributes
  · have ho : ∀ a ∈ tag.attributes, a.name.label ≠ name.label := fun a ha heq =>
      hne (mem_map.mpr ⟨(a.name.label, a.value), mem_map.mpr ⟨a, ha, rfl⟩, heq⟩)
    rw [Tag.entries, hat, putAttribute_of_not_mem ho, map_append]
    rfl

inductive DraftValue.Becomes : DraftValue → String → Prop
  | text (s : String) : Becomes (.text s) s
  | newId (n : Nat) : Becomes .newId (madeUpId n)

/-- An attribute is the one that a draft describes. -/
def IsEntry (a : Label × DraftValue) (entry : Label × String) : Prop := entry.1 = a.1 ∧ a.2.Becomes entry.2

theorem isEntry_text {s : String} (h : IsEntry (l, .text s) entry) : entry = (l, s) := by
  obtain ⟨label, value⟩ := entry
  obtain ⟨rfl, hv⟩ : label = l ∧ DraftValue.Becomes (.text s) value := h
  cases hv
  rfl

theorem isEntry_newId (h : IsEntry (l, .newId) x) : ∃ n, x = (l, madeUpId n) := by
  obtain ⟨label, value⟩ := x
  obtain ⟨rfl, hv⟩ : label = l ∧ DraftValue.Becomes .newId value := h
  cases hv with
  | newId n => exact ⟨n, rfl⟩

end

theorem writeValue_written (o : Scope) (tag : Tag) (a : Label × DraftValue) :
    Gives (Draft.writeValue o tag a) fun tag' => ∃ v, a.2.Becomes v ∧ tag.Written a.1 v tag' := by
  refine Gives.bind (P := a.2.Becomes) (fun supply => ?_) fun v hv => ?_
  · cases a.2 with
    | text s => exact .text s
    | newId => exact .newId supply.nextId
  · exact (writeAttribute_written o tag a.1 v).mono fun tag' hw => ⟨v, hv, hw⟩

/-- The value that an attribute has last in a draft. -/
def lastValue? (l : Label) : List (Label × DraftValue) → Option DraftValue
  | [] => none
  | a :: rest => (lastValue? l rest).or (if a.1 = l then some a.2 else none)

/-- What writing the attributes of a draft does to a tag. -/
structure Tag.WrittenAll (attributes : List (Label × DraftValue)) (tag tag' : Tag) : Prop where
  name : tag'.name = tag.name
  value? : ∀ l s, ((lastValue? l attributes).or ((tag.value? l).map DraftValue.text)) = some (.text s) →
    tag'.value? l = some s
  entries : (tag.entries.map Prod.fst ++ attributes.map Prod.fst).Nodup →
    ∃ entries, Forall₂ IsEntry attributes entries ∧ tag'.entries = tag.entries ++ entries

theorem writeValues_written (o : Scope) : ∀ (attributes : List (Label × DraftValue)) (tag : Tag),
    Gives (attributes.foldlM (Draft.writeValue o) tag) (Tag.WrittenAll attributes tag)
  | [], tag => by
    refine Gives.pure ⟨rfl, fun l s h => ?_, fun _ => ⟨[], .nil, (append_nil _).symm⟩⟩
    obtain ⟨s', hs', heq⟩ := map_eq_some_iff.mp h
    cases heq
    exact hs'
  | a :: tl, tag => by
    refine (writeValue_written o tag a).bind fun tag₁ hf => ?_
    obtain ⟨v, hv, hw⟩ := hf
    refine (writeValues_written o tl tag₁).mono fun tag₂ hr => ?_
    refine ⟨hr.name.trans hw.name, fun l s h => hr.value? l s ?_, fun h => ?_⟩
    · rw [lastValue?, Option.or_assoc] at h
      rw [hw.value? l]
      by_cases hl : a.1 = l
      · rw [if_pos hl] at h
        rw [if_pos hl]
        cases hla : lastValue? l tl with
        | some last => rwa [hla] at h
        | none =>
          rw [hla] at h
          rw [some.inj h] at hv
          cases hv
          rfl
      · rw [if_neg hl] at h
        rwa [if_neg hl]
    · have hn : a.1 ∉ tag.entries.map Prod.fst := fun hm =>
        disjoint_of_nodup_append h hm (mem_cons_self ..)
      have ht₁ := hw.entries hn
      obtain ⟨xs, he, ht₂⟩ := hr.entries (by
        rw [ht₁, map_append, append_assoc]
        exact h)
      refine ⟨(a.1, v) :: xs, .cons ⟨rfl, hv⟩ he, ?_⟩
      rw [ht₂, ht₁, append_assoc, singleton_append]

/-! ### New elements -/

/-- A tag is one that a draft describes, exactly if the draft has no attribute twice. -/
structure Tag.IsOf (label : Label) (attributes : List (Label × DraftValue)) (tag : Tag) : Prop where
  label : tag.name.label = label
  value? : ∀ l s, lastValue? l attributes = some (.text s) → tag.value? l = some s
  entries : (attributes.map Prod.fst).Nodup → Forall₂ IsEntry attributes tag.entries

/-- A node is what a draft describes. -/
inductive Settled : Draft → Node → Prop
  | text (s : String) : Settled (.text s) (.text s)
  | element {label : Label} {attributes : List (Label × DraftValue)} {drafts : List Draft} {tag : Tag}
      {content : List Node} : tag.IsOf label attributes → Forall₂ Settled drafts content →
      Settled (.element label attributes drafts) (.element tag content)

/-- A new element, with the scope in which the namespace of its name is looked for. -/
def Draft.build (search outer : Scope) (label : Label) (attributes : List (Label × DraftValue))
    (drafts : List Draft) : StateM Supply Node := do
  let tag ← openTag search label
  let tag ← attributes.foldlM (writeValue outer) tag
  let content ← settleAll (tag.layer :: outer) drafts
  return .element tag content

section

variable (outer o : Scope) (label : Label) (attributes : List (Label × DraftValue)) (drafts : List Draft)

theorem openTag_opens (search : Scope) :
    Gives (Draft.openTag search label) fun tag => tag.name.label = label ∧ tag.attributes = [] := by
  intro supply
  obtain ⟨uri, s⟩ := label
  cases uri with
  | none => exact ⟨rfl, rfl⟩
  | some uri =>
    refine ⟨?_, rfl⟩
    change Label.mk (some (search.claim uri none false supply.coined).1.uri) s = _
    rw [(claim_uri search uri none false supply.coined).1]

variable {label attributes drafts}

theorem build_settled (search : Scope) (hd : ∀ o, Gives (Draft.settleAll o drafts) (Forall₂ Settled drafts)) :
    Gives (Draft.build search o label attributes drafts) (Settled (.element label attributes drafts)) := by
  refine (openTag_opens label search).bind fun tag ht => ?_
  obtain ⟨rfl, hn⟩ := ht
  refine (writeValues_written o attributes tag).bind fun tag' h => ?_
  refine (hd _).bind fun ns hc => Gives.pure (.element ⟨?_, fun l s hl => ?_, fun hno => ?_⟩ hc)
  · rw [h.name]
  · exact h.value? l s (by rw [hl, some_or])
  · have he : tag.entries = [] := by rw [Tag.entries, hn, map_nil]
    obtain ⟨xs, hen, heq⟩ := h.entries (by rwa [he])
    rw [heq, he]
    exact hen

end

mutual

theorem settle_settled : ∀ (d : Draft) (o : Scope), Gives (d.settle o) (Settled d)
  | .text s, _ => Gives.pure (.text s)
  | .element _ _ drafts, o => build_settled o _ (settleAll_settled drafts)

theorem settleAll_settled : ∀ (drafts : List Draft) (o : Scope),
    Gives (Draft.settleAll o drafts) (Forall₂ Settled drafts)
  | [], o => Gives.pure .nil
  | d :: tl, o => by
    refine (settle_settled d o).bind fun n hno => ?_
    refine (settleAll_settled tl o).bind fun ns hn => ?_
    exact Gives.pure (.cons hno hn)

end

theorem exists_of_mem_right {α β : Type} {R : α → β → Prop} {xs : List α} {ys : List β}
    (h : Forall₂ R xs ys) {y : β} (hy : y ∈ ys) : ∃ x ∈ xs, R x y := by
  induction h with
  | nil => cases hy
  | cons hxy _ ih =>
    rcases mem_cons.mp hy with rfl | hy
    · exact ⟨_, mem_cons_self .., hxy⟩
    · obtain ⟨x, hx, hxy⟩ := ih hy
      exact ⟨x, mem_cons_of_mem _ hx, hxy⟩

end ProcessForge.Xml
