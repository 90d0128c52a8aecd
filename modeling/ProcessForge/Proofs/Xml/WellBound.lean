import Mathlib.Data.List.Forall2
import ProcessForge.Proofs.Xml.Building
import ProcessForge.Proofs.Xml.Tree

/-! Trees whose names agree with the declarations around them. In such a tree every short form is declared on the
    element or further outside, and the nearest declaration has the URI of the name. All documents that are
    read are of this kind. -/

namespace ProcessForge.Xml

open List Option

variable {bindings bs : List Namespace} {ats : List (RawName × String)}

/-! ### Well-bound trees -/

/-- The namespace of a name is the one that its short form is bound to. -/
def Resolves (bindings : List Namespace) (space : Namespace) : Prop := space.short = some "xml" ∨
    ∃ b, bindings.find? (fun b => b.short == space.short) = some b ∧ b.uri = space.uri

def Tag.spaces (tag : Tag) : List Namespace := tag.name.space.toList ++ tag.attributes.filterMap fun a => a.name.space

/-- A tag agrees with the declarations around it. -/
structure Tag.IsBound (bindings : List Namespace) (tag : Tag) : Prop where
  declared : ∀ space ∈ tag.declared, space.IsProper
  spaces : ∀ space ∈ tag.spaces, Resolves (tag.declared ++ bindings) space

/-- All tags of a node agree with the declarations around them. -/
inductive WellBound : List Namespace → Node → Prop
  | leaf {bindings : List Namespace} {node : Node} : node.element? = none → WellBound bindings node
  | element {bindings : List Namespace} {tag : Tag} {content : List Node} : tag.IsBound bindings →
      (∀ node ∈ content, WellBound (tag.declared ++ bindings) node) →
      WellBound bindings (.element tag content)

variable {space s : Namespace} {tag : Tag} {dropLayout : Bool} {cs : List Char}

theorem Resolves.append (h : Resolves bs space) (ms : List Namespace) : Resolves (bs ++ ms) space := by
  rcases h with hx | ⟨b, hf, hu⟩
  · exact Or.inl hx
  · exact Or.inr ⟨b, by rw [find?_append, hf, some_or], hu⟩

theorem Tag.IsBound.append (h : tag.IsBound bs) (ms : List Namespace) : tag.IsBound (bs ++ ms) :=
  ⟨h.declared, fun s hs => append_assoc .. ▸ (h.spaces s hs).append ms⟩

theorem WellBound.append {node : Node} (h : WellBound bs node) (ms : List Namespace) : WellBound (bs ++ ms) node := by
  induction h with
  | leaf hl => exact .leaf hl
  | element ht _ ih =>
    exact .element (ht.append ms) fun node hn => append_assoc .. ▸ ih node hn

/-! ### Reading a tag -/

theorem resolveShort_resolves {short : Option String}
    (h : resolveShort bindings short = some (some space)) : Resolves bindings space := by
  unfold resolveShort at h
  split at h
  · next hx =>
    cases h
    exact Or.inl (beq_iff_eq.mp hx)
  · split at h
    · next b hf =>
      split at h
      · cases h
      · cases h
        have hs : space.short = short := by simpa using find?_some hf
        exact Or.inr ⟨space, hs ▸ hf, rfl⟩
    · split at h <;> cases h

theorem resolveAttributes?_resolves {resolved : List Attribute} (h : resolveAttributes? bindings ats = some resolved) :
    ∀ a ∈ resolved, ∀ space, a.name.space = some space → Resolves bindings space := by
  intro a ha space hs
  obtain ⟨⟨name, v⟩, -, hn⟩ := exists_of_mem_mapM h a ha
  simp only at hn
  split at hn
  · cases hn
    cases hs
  · obtain ⟨f, hf, heq⟩ := bind_eq_some_iff.mp hn
    cases heq
    cases hs
    exact resolveShort_resolves hf

theorem Tag.Comes.isBound {name : RawName} (h : tag.Comes bindings name ats) : tag.IsBound bindings := by
  refine ⟨declarations?_isProper h.declared, fun s hs => ?_⟩
  rcases mem_append.mp hs with hn | hat
  · exact resolveShort_resolves (mem_toList.mp hn ▸ h.space)
  · obtain ⟨a, ha, hn⟩ := mem_filterMap.mp hat
    exact resolveAttributes?_resolves h.resolved a ha s hn

theorem builds_wellBound : Builds (fun _ => True) WellBound where
  leaf bindings t node _ hl := by
    cases t <;> cases hl <;> exact .leaf rfl
  join _ _ := .leaf rfl
  tag _ _ hco := .element hco.isBound (by simp)
  element he hc := by
    cases he with
    | leaf hl => cases hl
    | element ht _ => exact .element ht hc

theorem wellBound_of_parseChars {d : Document} (h : parseChars dropLayout cs = some d) : WellBound [] d.root.node := by
  obtain ⟨hp⟩ := exists_parsing h
  exact (hp.holds builds_wellBound fun _ _ => trivial).1

theorem wellBound_of_parsed (h : (parseChars dropLayout cs).isSome) :
    WellBound [] ((parseChars dropLayout cs).getD default).root.node := by
  obtain ⟨d, hd⟩ := isSome_iff_exists.mp h
  rw [hd]
  exact wellBound_of_parseChars hd

end ProcessForge.Xml
