import ProcessForge.Proofs.Xml.Children

/-! The contract of a task and the operations that store what was submitted. A contract that is written takes the
    place of the first one of the task, with the tree of its inputs as the only child. The operations that were
    there go away, and the new ones stand together, in their order, right in front of the anchor of the task.
    All other children stay in their order. -/

namespace ProcessForge.Bonita

open Xml List

variable {pairs : List (String × Option String)} {tag : Tag}

/-! ### New elements -/

def given (pairs : List (String × Option String)) : List (Label × String) :=
  pairs.filterMap fun (stem, value) => value.map fun v => (.plain stem, v)

/-- The tag of a new element: a kind, an id that was made up and the given attributes, and nothing else. -/
structure IsNewTag (stem kind : String) (pairs : List (String × Option String)) (tag : Tag) : Prop where
  label : tag.name.label = .plain stem
  entries : ∃ n, tag.entries = (kindLabel, kind) :: (idLabel, madeUpId n) :: given pairs

theorem entries_eq_given : ∀ {pairs : List (String × Option String)} {entries : List (Label × String)},
    Forall₂ IsEntry (attributes pairs) entries → entries = given pairs
  | [], _, h => by
    cases h
    rfl
  | (stem, none) :: rest, _, h => @entries_eq_given rest _ h
  | (stem, some value) :: rest, _, .cons hf hr => by
    rw [isEntry_text hf, @entries_eq_given rest _ hr]
    rfl

theorem nodup_attributes (h : (pairs.map Prod.fst).Nodup) :
    ((attributes pairs).map Prod.fst).Nodup ∧ ∀ label ∈ (attributes pairs).map Prod.fst, label.uri = none := by
  have hl : ((attributes pairs).map Prod.fst).Sublist ((pairs.map Prod.fst).map Label.plain) := by
    clear h
    induction pairs with
    | nil => exact .slnil
    | cons pair rest ih =>
      obtain ⟨stem, value⟩ := pair
      cases value with
      | none => exact ih.cons _
      | some value => exact ih.cons_cons _
  refine ⟨hl.nodup (h.map fun a b ha => (Label.mk.inj ha).2), fun label hla => ?_⟩
  obtain ⟨stem, -, rfl⟩ := mem_map.mp (hl.subset hla)
  rfl

variable {stem s kind k className cls typeId : String} {node n : Node} {content ns : List Node}

theorem settled_piece {drafts : List Draft}
    (h : Settled (piece stem kind pairs drafts) node) (hpa : (pairs.map Prod.fst).Nodup) :
    ∃ tag content, node = .element tag content ∧ IsNewTag stem kind pairs tag ∧ Forall₂ Settled drafts content := by
  obtain ⟨hn, hp⟩ := nodup_attributes hpa
  cases h with
  | element ht hc =>
    have he := ht.entries (by
      rw [map_cons, map_cons, nodup_cons, nodup_cons, mem_cons]
      refine ⟨?_, fun hid => ?_, hn⟩
      · rintro (hid | hk)
        · exact absurd hid (by simp [kindLabel, idLabel])
        · cases hp _ hk
      · cases hp _ hid)
    obtain ⟨kindEntry, behind, hk, hb, heq⟩ := forall₂_cons_left_iff.mp he
    obtain ⟨idEntry, rest, hid, hr, rfl⟩ := forall₂_cons_left_iff.mp hb
    obtain ⟨n, rfl⟩ := isEntry_newId hid
    refine ⟨_, _, rfl, ⟨ht.label, n, ?_⟩, hc⟩
    rw [heq, isEntry_text hk, entries_eq_given hr]

/-! ### Inputs -/

/-- An element is the tree of an input: names, nesting and order are the same, a type is written unless it is a
    text, and a reference to a business object where there is one. -/
inductive IsInput : ContractInput → Node → Prop
  | input {name type : String} {object : Option String} {inputs : List ContractInput} {tag : Tag}
      {content : List Node} :
      IsNewTag "inputs" "process:ContractInput" [
        ("name", some name), ("type", if type = "TEXT" then none else some type), ("createMode", some "false"),
        ("dataReference", object.filter (· != ""))] tag →
      Forall₂ IsInput inputs content → IsInput (.input name type object inputs) (.element tag content)

mutual

theorem isInput_of_settled : ∀ (input : ContractInput) {node : Node}, Settled (inputDraft input) node →
    IsInput input node
  | .input name type object inputs, node, h => by
    obtain ⟨tag, content, rfl, ht, hc⟩ := settled_piece h (by simp)
    simp only [beq_iff_eq] at ht
    exact .input ht (areInputs_of_settled inputs hc)

theorem areInputs_of_settled : ∀ (is : List ContractInput) {ns : List Node},
    Forall₂ Settled (inputDrafts is) ns → Forall₂ IsInput is ns
  | [], ns, h => by
    cases h
    exact .nil
  | input :: tl, ns, h => by
    cases h with
    | cons hf hr => exact .cons (isInput_of_settled input hf) (areInputs_of_settled tl hr)

end

/-! ### The contract -/

def contractLabel : Label := .plain "contract"

def operationLabel : Label := .plain "operations"

/-- The tag of a contract that was there before: it stays as it is, and gets a kind if it has none. -/
def IsCompleted (tag tag' : Tag) : Prop :=
  if (tag.value? kindLabel).isSome then tag' = tag
  else tag'.name = tag.name ∧ tag'.entries = tag.entries ++ [(kindLabel, "process:Contract")]

/-- Among the nodes, the first contract is written anew, with the tree of inputs as its only child. If there is
    none, a new one stands behind the others. -/
inductive ContractPut (root : ContractInput) (old new : List Node) : Prop
  | kept {before inner after : List Node} {tag tag' : Tag} {input : Node} :
      old = before ++ .element tag inner :: after → tag.name.label = contractLabel →
      (∀ node ∈ before, node.is contractLabel = false) → IsCompleted tag tag' → IsInput root input →
      new = before ++ .element tag' (inner.takeWhile Node.isText ++ [input]) :: after → ContractPut root old new
  | added {tag : Tag} {input : Node} : (∀ node ∈ old, node.is contractLabel = false) →
      IsNewTag "contract" "process:Contract" [] tag → IsInput root input →
      new = old ++ [.element tag [input]] → ContractPut root old new

theorem IsNewTag.value?_kind (h : IsNewTag stem kind pairs tag) : tag.value? kindLabel = some kind := by
  obtain ⟨n, he⟩ := h.entries
  rw [value?_eq_find?, he]
  simp

theorem completed_label {tag' : Tag} (h : IsCompleted tag tag') : tag'.name.label = tag.name.label := by
  rw [IsCompleted] at h
  split at h
  · rw [h]
  · rw [h.1]

theorem contract_rewritten (o : Scope) (tag : Tag) (inner : List Node) (root : ContractInput) :
    Gives (applyEdits o tag inner
      [.setMissing kindLabel "process:Contract", .clearAll, .append (inputDraft root)]) fun r =>
      ∃ tag' i, IsCompleted tag tag' ∧ IsInput root i ∧ r = (tag', inner.takeWhile Node.isText ++ [i]) := by
  have hk : Gives ((Edit.setMissing kindLabel "process:Contract").apply o tag inner) fun r =>
      IsCompleted tag r.1 ∧ r.2 = inner := by
    rw [Edit.apply]
    cases hs : (tag.value? kindLabel).isSome with
    | true => exact Gives.pure ⟨by rw [IsCompleted, if_pos hs], rfl⟩
    | false =>
      intro supply
      refine ⟨?_, rfl⟩
      rw [IsCompleted, hs]
      have hw := writeAttribute_written o tag kindLabel "process:Contract" supply
      exact ⟨hw.name, hw.entries (not_mem_entries hs)⟩
  refine hk.bind fun r hr => ?_
  obtain ⟨tag', inner'⟩ := r
  obtain ⟨ht', rfl⟩ : IsCompleted tag tag' ∧ inner' = inner := hr
  simp only [applyEdits, Edit.apply, pure_bind, bind_assoc, removeNodes_all]
  refine (settle_settled (inputDraft root) (tag'.layer :: o)).bind fun i hin => ?_
  exact Gives.pure ⟨tag', i, ht', isInput_of_settled root hin, rfl⟩

theorem lacks_piece (content : List Node) (stem kind : String) (pairs : List (String × Option String))
    (drafts : List Draft) : lacks content (piece stem kind pairs drafts) = !content.any (Node.is (.plain stem)) := rfl

theorem contract_put (outer : Scope) (tag : Tag) (content : List Node) (root : ContractInput) :
    Gives (applyEdits outer tag content [.ensure (piece "contract" "process:Contract" [] []), .within contractLabel [
        .setMissing kindLabel "process:Contract", .clearAll, .append (inputDraft root)]]) fun r =>
      r.1 = tag ∧ ContractPut root content r.2 := by
  have hw : ∀ {before inner after : List Node} {child : Tag}, child.name.label = contractLabel →
      (∀ node ∈ before, node.is contractLabel = false) →
      Gives (applyEdits outer tag (before ++ .element child inner :: after) [.within contractLabel [
        .setMissing kindLabel "process:Contract", .clearAll, .append (inputDraft root)]]) fun r =>
        ∃ child' input, IsCompleted child child' ∧ IsInput root input ∧
          r = (tag, before ++ .element child' (inner.takeWhile Node.isText ++ [input]) :: after) := by
    intro before inner after child hl hb
    rw [applyEdits, Edit.apply, splitAtChild?_append hl inner after hb]
    simp only [bind_assoc]
    refine (contract_rewritten (tag.layer :: outer) child inner root).bind fun r hr => ?_
    obtain ⟨child', input, hc', hin, rfl⟩ := hr
    exact Gives.pure ⟨child', input, hc', hin, rfl⟩
  rw [applyEdits, Edit.apply]
  cases hs : splitAtChild? contractLabel content with
  | some found =>
    obtain ⟨before, child, inner, after⟩ := found
    obtain ⟨rfl, hl, hb⟩ := splitAtChild?_eq_some hs
    have ht : lacks (before ++ .element child inner :: after) (piece "contract" "process:Contract" [] []) = false := by
      rw [lacks_piece, Bool.not_eq_false', any_eq_true]
      exact ⟨.element child inner, by simp, is_iff.mpr hl⟩
    rw [if_neg (by simp [ht]), pure_bind]
    refine (hw hl hb).mono fun r hr => ?_
    obtain ⟨child', input, hc', hin, rfl⟩ := hr
    exact ⟨rfl, .kept rfl hl hb hc' hin rfl⟩
  | none =>
    have hn := splitAtChild?_eq_none.mp hs
    have hla : lacks content (piece "contract" "process:Contract" [] []) := by
      rw [lacks_piece, Bool.not_eq_true', any_eq_false]
      exact fun node hno => (Bool.not_eq_true _).mpr (hn node hno)
    rw [if_pos hla, bind_assoc]
    refine (settle_settled _ (tag.layer :: outer)).bind fun node hno => ?_
    obtain ⟨new, nodes, rfl, hne, hni⟩ := settled_piece hno (by simp)
    obtain rfl := forall₂_nil_left_iff.mp hni
    rw [pure_bind]
    refine (hw hne.label hn).mono fun r hr => ?_
    obtain ⟨child', input, hc', hin, rfl⟩ := hr
    rw [IsCompleted, hne.value?_kind] at hc'
    exact ⟨rfl, .added hn (hc' ▸ hne) hin rfl⟩

theorem is_element {l : Label} (h : tag.name.label = l) (ns : List Node) : (Node.element tag ns).is l := is_iff.mpr h

namespace ContractPut

open List

variable {root : ContractInput} {old new : List Node}

theorem filter (h : ContractPut root old new) {p : Node → Bool}
    (hp : ∀ n, n.is contractLabel → p n) : ContractPut root (old.filter p) (new.filter p) := by
  cases h with
  | @kept before inner a tag tag' input ho hl hb ht hin hne =>
    have hl' := (completed_label ht).trans hl
    have hb' : ∀ n ∈ before.filter p, n.is contractLabel = false := fun n hn => hb n (mem_of_mem_filter hn)
    refine @ContractPut.kept _ _ _ _ inner (a.filter p) _ _ _ ?_ hl hb' ht hin ?_
    · rw [ho, filter_append, filter_cons_of_pos (hp _ (is_element hl _))]
    · rw [hne, filter_append, filter_cons_of_pos (hp _ (is_element hl' _))]
  | added hno ht hin hne =>
    refine .added (fun n hn => hno n (mem_of_mem_filter hn)) ht hin ?_
    rw [hne, filter_append, filter_cons_of_pos (hp _ (is_element ht.label _)), filter_nil]

theorem exists_contract (h : ContractPut root old new) : ∃ n ∈ new, n.is contractLabel := by
  cases h with
  | kept ho hl hb ht hin hn =>
    rw [hn]
    exact ⟨_, mem_append_right _ (mem_cons_self ..), is_element ((completed_label ht).trans hl) _⟩
  | added hno ht hin hn =>
    rw [hn]
    exact ⟨_, mem_append_right _ (mem_cons_self ..), is_element ht.label _⟩

end ContractPut

/-! ### The task -/

/-- An element is the operation that stores a field: target, value and setter as they are drafted for it. -/
abbrev IsOperation (className typeId : String) (op : FieldOperation) (node : Node) : Prop :=
  Settled (operationDraft typeId (Defaults.modelClass className) op) node

/-- Children of a task before and after a contract was written: the operations that were there are gone, the
    contract is put among the other children, and the new operations stand right in front of the anchor. -/
def ContractWritten (contract : Contract) (className typeId : String) (old new : List Node) : Prop :=
  ∃ before operations anchor after, new = before ++ operations ++ anchor :: after ∧
    Forall₂ (IsOperation className typeId) contract.operations operations ∧
    new.filter (Node.is operationLabel) = operations ∧ IsAnchor anchors (before ++ operations) anchor after ∧
    ContractPut contract.root (old.filter fun node => !node.is operationLabel) (before ++ anchor :: after)

theorem not_operation_of_contract (h : node.is contractLabel) : node.is operationLabel = false := by
  cases node with
  | element tag ns =>
    rw [Node.is, is_iff] at h
    rw [Node.is, Tag.is, h]
    decide
  | text | comment | instruction => rfl

theorem forall_is_operation {ops : List FieldOperation} {nodes : List Node}
    (h : Forall₂ (IsOperation className typeId) ops nodes) : ∀ node ∈ nodes, node.is operationLabel := by
  induction h with
  | nil => exact forall_mem_nil _
  | cons hf _ ih =>
    refine forall_mem_cons.mpr ⟨?_, ih⟩
    obtain ⟨tag, content, rfl, ht, -⟩ := settled_piece hf (by simp)
    exact is_element ht.label content

theorem operations_placed (c : Contract) (cls typeId : String) (o : Scope) (tag : Tag)
    (h : ∃ n ∈ ns, n.is contractLabel) :
    Gives (applyEdits o tag ns
      ((c.operations.map (operationDraft typeId (Defaults.modelClass cls))).map fun operation =>
        .place operation anchors)) fun r => ∃ b operations anchor a, ns = b ++ anchor :: a ∧
        r = (tag, b ++ operations ++ anchor :: a) ∧ IsAnchor anchors (b ++ operations) anchor a ∧
        Forall₂ (IsOperation cls typeId) c.operations operations := by
  have hf : ∃ l ∈ anchors, ns.any (Node.is l) := ⟨contractLabel, by decide, any_eq_true.mpr h⟩
  obtain ⟨b, anchor, a, rfl, ha⟩ := exists_isAnchor hf
  refine (applyEdits_place o tag a _ b ha fun d hd l hl hla => ?_).mono fun r hr => ?_
  · obtain ⟨op, -, rfl⟩ := mem_map.mp hd
    exact absurd (Option.some.inj hla ▸ hl) (by decide)
  · obtain ⟨operations, hre, hr, ha⟩ := hr
    exact ⟨b, operations, anchor, a, rfl, hr, ha, by simpa using hre⟩

/-- The parts of a written task, from the contract that was put and the operations that were placed. -/
theorem contractWritten_of_put {c : Contract}
    {put b operations after : List Node} {anchor : Node} (hp : ContractPut c.root ns put)
    (hc : removeNodes (Node.is operationLabel) false put = b ++ anchor :: after)
    (ha : IsAnchor anchors (b ++ operations) anchor after)
    (hop : Forall₂ (IsOperation cls typeId) c.operations operations) :
    ContractWritten c cls typeId (childNodes ns) (childNodes (b ++ operations ++ anchor :: after)) := by
  have hne := forall_is_operation hop
  have ht : childNodes operations = operations := childNodes_eq_self fun n hn => isText_of_is (hne n hn)
  have ho : childNodes b ++ anchor :: childNodes after = (childNodes put).filter fun n => !n.is operationLabel := by
    rw [← childNodes_cons ha.isText, ← childNodes_append, ← hc, childNodes_removeNodes]
  have hno : (childNodes b ++ anchor :: childNodes after).filter (Node.is operationLabel) = [] := by
    rw [ho]
    simp
  have hal : childNodes (b ++ operations ++ anchor :: after)
      = childNodes b ++ operations ++ anchor :: childNodes after := by
    rw [childNodes_append, childNodes_append, childNodes_cons ha.isText, ht]
  refine ⟨childNodes b, operations, anchor, childNodes after, hal, hop, ?_, ?_, ?_⟩
  · rw [filter_append, append_eq_nil_iff] at hno
    rw [hal, filter_append, filter_append, hno.1, hno.2, filter_eq_self.mpr hne, nil_append, append_nil]
  · simpa [childNodes_append, ht] using ha.childNodes
  · rw [ho]
    refine (hp.filter fun n hn => ?_).filter fun n hn => ?_
    · simp [isText_of_is hn]
    · simp [not_operation_of_contract hn]

theorem contractEdits_written (contract : Contract) (className typeId : String) (outer : Scope) (tag : Tag)
    (content : List Node) : Gives (applyEdits outer tag content (contractEdits contract className typeId)) fun r =>
      r.1 = tag ∧ ContractWritten contract className typeId (childNodes content) (childNodes r.2) := by
  have hs : contractEdits contract className typeId = [.ensure (piece "contract" "process:Contract" [] []),
          .within contractLabel
            [.setMissing kindLabel "process:Contract", .clearAll, .append (inputDraft contract.root)]]
        ++ .clear operationLabel ::
          (contract.operations.map (operationDraft typeId (Defaults.modelClass className))).map fun operation =>
            .place operation anchors := rfl
  rw [hs, applyEdits_append]
  refine (contract_put outer tag content contract.root).bind fun r hr => ?_
  obtain ⟨tag', put⟩ := r
  obtain ⟨rfl, hp⟩ : tag' = tag ∧ ContractPut contract.root content put := hr
  have hc : ∃ node ∈ removeNodes (Node.is operationLabel) false put, node.is contractLabel := by
    obtain ⟨node, hn, hl⟩ := hp.exists_contract
    refine ⟨node, mem_of_mem_childNodes ?_, hl⟩
    rw [childNodes_removeNodes]
    refine mem_filter.mpr ⟨mem_filter.mpr ⟨hn, ?_⟩, ?_⟩
    · simp [isText_of_is hl]
    · simp [not_operation_of_contract hl]
  refine (operations_placed contract className typeId outer tag' hc).mono fun r hr => ?_
  obtain ⟨before, operations, anchor, after, hcl, rfl, ha, ho⟩ := hr
  exact ⟨rfl, contractWritten_of_put hp hcl ha ho⟩

def contractTexts (contract : Contract) (className typeId : String) : List String := (inputDraft contract.root).texts ++
    contract.operations.flatMap fun op => (operationDraft typeId (Defaults.modelClass className) op).texts

theorem cutEdits_places (ds : List Draft) (anchors : List Label) :
    (cutEdits (ds.map fun d => .place d anchors)).2 = (ds.flatMap Draft.texts).all isAllowedText := by
  induction ds with
  | nil => simp [cutEdits]
  | cons d tl ih =>
    rw [map_cons, cutEdits_cons, ih, Edit.cut, flatMap_cons, all_append, ← cut_draft_eq]

/-- A contract can be written exactly if XML allows its texts. -/
theorem cutEdits_contractEdits (contract : Contract) (className typeId : String) :
    (cutEdits (contractEdits contract className typeId)).2 =
      (contractTexts contract className typeId).all isAllowedText := by
  have he : (piece "contract" "process:Contract" [] []).cut.2 := by
    decide
  have hk : (Edit.setMissing kindLabel "process:Contract").cut.2 := by decide
  have hn : (cutEdits []).2 := by rw [cutEdits]
  rw [contractEdits, cutEdits_append, cutEdits_places, contractTexts, all_append, flatMap_map, ← cut_draft_eq,
    cutEdits_cons, cutEdits_cons, cutEdits_cons, Edit.cut, he, Edit.cut, cutEdits_cons, hk, cutEdits_cons,
    cutEdits_cons, hn]
  simp [Edit.cut]

/-- A contract and its operations are written once and in order, at every task and whenever XML allows the texts. -/
theorem contract_and_operations_written (contract : Contract) (className typeId : String) :
    (∀ place : Place, Plans (Planning.edit place (contractEdits contract className typeId))
      ((contractTexts contract className typeId).all isAllowedText = true)
      [⟨place.path, contractEdits contract className typeId⟩]) ∧
    ∀ (outer : Scope) (task : Element),
      Gives (applyEdits outer task.tag task.content (contractEdits contract className typeId)) fun r =>
        r.1 = task.tag ∧ ContractWritten contract className typeId (childNodes task.content) (childNodes r.2) := by
  refine ⟨fun place => ?_,
    fun outer task => contractEdits_written contract className typeId outer task.tag task.content⟩
  rw [← cutEdits_contractEdits]
  exact .edit place _

end ProcessForge.Bonita
