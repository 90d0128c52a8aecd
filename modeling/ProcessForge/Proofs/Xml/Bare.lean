import ProcessForge.Proofs.Xml.Rebind

/-! What a tree shows: labels, attributes and contents, without short forms and declarations. Two documents that
    show the same have the same elements, attributes and texts in the same order, and this can be evaluated. -/

namespace ProcessForge.Xml

open List

/-! ### Bare trees -/

/-- The name with a label and without a short form. -/
def Label.bare (label : Label) : Name := ⟨label.uri.map (Namespace.mk none), label.stem⟩

@[simp] theorem label_bare (label : Label) : label.bare.label = label := by
  obtain ⟨uri, s⟩ := label
  cases uri <;> rfl

def Tag.bare (tag : Tag) : Tag where
  name := tag.name.label.bare
  attributes := tag.attributes.map fun a => ⟨a.name.label.bare, a.value⟩

mutual

def Node.bare : Node → Node
  | .element tag content => .element tag.bare (bareAll content)
  | .text s => .text s
  | .comment s => .comment s
  | .instruction target body => .instruction target body

def bareAll : List Node → List Node
  | [] => []
  | node :: rest => node.bare :: bareAll rest

end

@[simp] theorem bare_label (tag : Tag) : tag.bare.name.label = tag.name.label := label_bare _

@[simp] theorem bare_is (tag : Tag) (l : Label) : tag.bare.is l = tag.is l := by
  rw [Tag.is, Tag.is, bare_label]

@[simp] theorem bare_value? (tag : Tag) (l : Label) : tag.bare.value? l = tag.value? l := by
  rw [Tag.value?, Tag.value?, Tag.bare]
  simp [Function.comp_def]

@[simp] theorem bare_get? (tag : Tag) (stem : String) : tag.bare.get? stem = tag.get? stem :=
  bare_value? tag (.plain stem)

@[simp] theorem bare_element (tag : Tag) (ns : List Node) :
    (Node.element tag ns).bare = .element tag.bare (bareAll ns) := by
  rw [Node.bare]

@[simp] theorem bareAll_nil : bareAll [] = [] := by rw [bareAll]

@[simp] theorem bareAll_cons (n : Node) (rest : List Node) :
    bareAll (n :: rest) = n.bare :: bareAll rest := by rw [bareAll]

theorem bare_leaf {node : Node} (h : node.element? = none) : node.bare = node := by
  cases node with
  | element tag ns => cases h
  | text | comment | instruction => simp [Node.bare]

theorem bareAll_eq_map (ns : List Node) : bareAll ns = ns.map Node.bare := by
  induction ns with
  | nil => simp
  | cons n tl ih => simp [ih]

theorem bareAll_append (xs ys : List Node) : bareAll (xs ++ ys) = bareAll xs ++ bareAll ys := by
  simp [bareAll_eq_map]

@[simp] theorem is_bare (n : Node) (l : Label) : n.bare.is l = n.is l := by
  cases n with
  | element tag ns => simp [Node.is]
  | text | comment | instruction => simp [Node.bare]

@[simp] theorem isText_bare (n : Node) : n.bare.isText = n.isText := by
  cases n with
  | element tag ns => simp [Node.isText]
  | text | comment | instruction => simp [Node.bare]

theorem keepsKinds_bare : KeepsKinds Node.bare where
  text node h := by
    cases node with
    | text s => exact bare_leaf rfl
    | element | comment | instruction => cases h
  isText := isText_bare
  is := is_bare

mutual

theorem all_bare {Q : Tag → Prop} : ∀ n : Node, n.bare.All Q ↔ n.All fun tag => Q tag.bare
  | .element tag ns => by
    rw [bare_element, all_element, all_element]
    exact and_congr_right fun _ => forall_all_bare ns
  | .text _ | .comment _ | .instruction _ _ => iff_of_true (by exact all_leaf rfl) (all_leaf rfl)

theorem forall_all_bare {Q : Tag → Prop} : ∀ ns : List Node,
    (∀ n ∈ bareAll ns, n.All Q) ↔ ∀ n ∈ ns, n.All fun tag => Q tag.bare
  | [] => by simp
  | n :: tl => by
    rw [bareAll_cons, forall_mem_cons, forall_mem_cons, all_bare n, forall_all_bare tl]

end

/-! ### Documents -/

def Element.bare (e : Element) : Element := ⟨e.tag.bare, bareAll e.content⟩

def Document.bare (d : Document) : Document := { d with root := d.root.bare, coined := 0 }

theorem bare_node (e : Element) : e.node.bare = e.bare.node := bare_element e.tag e.content

theorem node_injective {e e' : Element} (h : e.node = e'.node) : e = e' := by
  obtain ⟨ht, hc⟩ := Node.element.inj h
  exact congr (congrArg Element.mk ht) hc

theorem Tag.Rebound.bare {tag tag' : Tag} (h : tag.Rebound tag') : tag'.bare = tag.bare := by
  have ha := congrArg (map fun a : Label × String => Attribute.mk a.1.bare a.2) h.attributes
  rw [map_map, map_map] at ha
  rw [Tag.bare, h.label]
  exact congrArg (Tag.mk _ []) ha

mutual

theorem Rebound.bare : ∀ (n' : Node) {n : Node}, Rebound n n' → n'.bare = n.bare
  | .element tag' ns', .element tag ns, .element ht hc => by
    rw [bare_element, bare_element, ht.bare, bareAll_of_rebound ns' hc]
  | .text _, _, .leaf _ | .comment _, _, .leaf _ | .instruction _ _, _, .leaf _ => rfl

theorem bareAll_of_rebound : ∀ (ns' : List Node) {ns : List Node}, Forall₂ Rebound ns ns' → bareAll ns' = bareAll ns
  | [], _, .nil => rfl
  | n' :: tl', _, .cons hn hr => by
    rw [bareAll_cons, bareAll_cons, hn.bare n', bareAll_of_rebound tl' hr]

end

theorem ensureNamespaces_bare {d : Document} (h : WellBound [] d.root.node) {ss : List Namespace}
    (hs : ∀ s ∈ ss, s.IsProper) : (d.ensureNamespaces ss).bare = d.bare := by
  have hr := (ensureNamespaces_rebound h hs).bare
  rw [bare_node, bare_node] at hr
  rw [Document.bare, node_injective hr]
  rfl

/-! ### Comparison -/

mutual

def Node.same : Node → Node → Bool
  | .element tag content, .element tag' content' => tag == tag' && sameAll content content'
  | .text s, .text s' => s == s'
  | .comment s, .comment s' => s == s'
  | .instruction target body, .instruction target' body' => target == target' && body == body'
  | _, _ => false

def sameAll : List Node → List Node → Bool
  | [], [] => true
  | node :: rest, node' :: rest' => node.same node' && sameAll rest rest'
  | _, _ => false

end

mutual

theorem same_iff : ∀ n n' : Node, n.same n' ↔ n = n'
  | .element tag ns, n' => by cases n' <;> simp [Node.same, sameAll_iff ns]
  | .text _, n' | .comment _, n' | .instruction _ _, n' => by cases n' <;> simp [Node.same]

theorem sameAll_iff : ∀ ns ns' : List Node, sameAll ns ns' ↔ ns = ns'
  | [], ns' => by cases ns' <;> simp [sameAll]
  | n :: tl, ns' => by cases ns' <;> simp [sameAll, same_iff n, sameAll_iff tl]

end

instance : DecidableEq Node := fun node node' => decidable_of_iff _ (same_iff node node')

deriving instance DecidableEq for Element
deriving instance DecidableEq for Document

end ProcessForge.Xml
