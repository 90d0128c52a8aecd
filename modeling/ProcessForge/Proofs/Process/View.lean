import Mathlib.Data.List.Forall2
import ProcessForge.Process.Reader
import ProcessForge.Proofs.Xml.Tree

/-! What a reader of processes sees of a document. The view of a tree keeps the elements that readers look for,
    with their attributes and texts, and the elements around them; everything else is left out. A view can be
    taken with replaced conditions of flows, and with processes marked as executable. Elements that are seen
    alike have the same attributes and texts, and their children and descendants are seen alike. -/

namespace ProcessForge.Process

open Xml List

/-! ### Views -/

/-- How a document is looked at: conditions that replace those of flows, by id, and whether processes without
    a mark count as executable. -/
structure Sight where
  condition : String → Option String := fun _ => none
  executable : Bool := false

/-- Part of a view. -/
inductive View where
  | element (label : Label) (attributes : List (String × String)) (text : Option String) (content : List View)

/-- Whether readers look for elements with the label. -/
def isVisible (label : Label) : Bool :=
  label.uri == some bpmnUri && label.stem != "extensionElements" && label.stem != "conditionExpression"

def plainAttributes (tag : Tag) : List (String × String) :=
  tag.attributes.filterMap fun a =>
    if a.name.space.isNone then some (a.name.stem, a.value) else none

def conditionText (content : List Node) : Option String :=
  textOf? ((elementsAmong content).find? fun child => child.tag.is (bpmn "conditionExpression"))

def Sight.attributes (s : Sight) (tag : Tag) : List (String × String) :=
  if s.executable && tag.is (bpmn "process") && (tag.get? "isExecutable").isNone then
    plainAttributes tag ++ [("isExecutable", "true")]
  else plainAttributes tag

/-- The text that is seen: of a flow it is the condition. -/
def Sight.text (s : Sight) (tag : Tag) (content : List Node) : Option String :=
  if tag.is (bpmn "sequenceFlow") then
    match (tag.get? "id").bind s.condition with
    | some condition => some (Text.trim condition)
    | none => conditionText content
  else leadingText? content

mutual

/-- The view of a node. An element that readers do not look for is seen if something in it is. -/
def nodeView (s : Sight) : Node → List View
  | .element tag content =>
    if isVisible tag.name.label then
      [.element tag.name.label (s.attributes tag) (s.text tag content) (contentView s content)]
    else if (contentView s content).isEmpty then []
    else [.element tag.name.label [] none (contentView s content)]
  | _ => []

def contentView (s : Sight) : List Node → List View
  | [] => []
  | node :: rest => nodeView s node ++ contentView s rest

end

/-- The view of an element that readers look for. -/
def elementView (s : Sight) (e : Element) : View :=
  .element e.tag.name.label (s.attributes e.tag) (s.text e.tag e.content) (contentView s e.content)

namespace View

def label : View → Label
  | element label _ _ _ => label

@[simp] theorem label_element (label : Label) (ats : List (String × String)) (t : Option String) (ns : List View) :
    (element label ats t ns).label = label := rfl

mutual

def parts : View → List View
  | element label attributes text content =>
    element label attributes text content :: partsBelow content

/-- All parts of a view, at any depth. -/
def partsBelow : List View → List View
  | [] => []
  | v :: rest => v.parts ++ partsBelow rest

end

@[simp] theorem partsBelow_nil : partsBelow [] = [] := by rw [partsBelow]

@[simp] theorem partsBelow_cons (label : Label) (ats : List (String × String))
    (t : Option String) (ns tl : List View) : partsBelow (element label ats t ns :: tl)
      = element label ats t ns :: (partsBelow ns ++ partsBelow tl) := by
  rw [partsBelow, parts, cons_append]

theorem partsBelow_append : ∀ vs ws : List View, partsBelow (vs ++ ws) = partsBelow vs ++ partsBelow ws
  | [], ws => by simp
  | element label ats t ns :: vs, ws => by simp [partsBelow_append vs ws]

end View

@[simp] theorem contentView_nil (s : Sight) : contentView s [] = [] := by rw [contentView]

@[simp] theorem contentView_cons (s : Sight) (n : Node) (rest : List Node) :
    contentView s (n :: rest) = nodeView s n ++ contentView s rest := by rw [contentView]

theorem contentView_append (s : Sight) : ∀ xs ys : List Node,
    contentView s (xs ++ ys) = contentView s xs ++ contentView s ys
  | [], ys => by simp
  | x :: xs, ys => by simp [contentView_append s xs ys]

theorem nodeView_of_visible (s : Sight) {tag : Tag} (h : isVisible tag.name.label)
    (ns : List Node) : nodeView s (.element tag ns) = [elementView s ⟨tag, ns⟩] := by
  rw [nodeView, if_pos h, elementView]

theorem nodeView_leaf (s : Sight) {n : Node} (h : n.element? = none) : nodeView s n = [] := by
  cases n with
  | element tag ns => cases h
  | text | comment | instruction => simp [nodeView]

theorem label_of_mem_nodeView {s : Sight} {tag : Tag} {ns : List Node} {v : View}
    (h : v ∈ nodeView s (.element tag ns)) : v.label = tag.name.label := by
  rw [nodeView] at h
  split at h
  · rw [mem_singleton.mp h, View.label]
  · split at h
    · cases h
    · rw [mem_singleton.mp h, View.label]

/-! ### Finding elements in a view -/

theorem filter_contentView (s : Sight) {l : Label} (hl : isVisible l) (ns : List Node) :
    (contentView s ns).filter (fun v => v.label == l)
      = ((elementsAmong ns).filter fun e => e.tag.is l).map (elementView s) := by
  induction ns with
  | nil => simp
  | cons n tl ih =>
    rw [contentView_cons, filter_append, ih]
    cases n with
    | element tag t =>
      rw [elementsAmong_element]
      by_cases ht : tag.name.label = l
      · have hv : isVisible tag.name.label := ht ▸ hl
        rw [nodeView_of_visible s hv, filter_cons_of_pos (by simpa [elementView] using ht),
          filter_cons_of_pos (by simpa using ht)]
        rfl
      · rw [filter_cons_of_neg (by simpa using ht), filter_eq_nil_iff.mpr, nil_append]
        intro v hv
        rw [label_of_mem_nodeView hv]
        simpa using ht
    | text | comment | instruction => rfl

theorem filter_parts_contentView (s : Sight) {l : Label} (hl : isVisible l) : ∀ ns : List Node,
    (View.partsBelow (contentView s ns)).filter (fun v => v.label == l)
      = ((elementsBelow ns).filter fun e => e.tag.is l).map (elementView s)
  | [] => by simp
  | .element tag ns :: tl => by
    have ih := filter_parts_contentView s hl ns
    rw [contentView_cons, View.partsBelow_append, filter_append, filter_parts_contentView s hl tl, elementsBelow_cons,
      filter_append, map_append, elements_element, nodeView]
    refine congrArg (· ++ _) ?_
    by_cases hv : isVisible tag.name.label
    · rw [if_pos hv]
      by_cases ht : tag.name.label = l
      · simp [ht, elementView, ih]
      · simp [ht, ih]
    · have ht : tag.name.label ≠ l := fun h => hv (h ▸ hl)
      rw [if_neg hv, filter_cons_of_neg (by simpa using ht), ← ih]
      split
      · next hn => rw [List.isEmpty_iff.mp hn]
      · simp [ht]
  | .text _ :: tl | .comment _ :: tl | .instruction _ _ :: tl => filter_parts_contentView s hl tl

/-! ### Elements that are seen alike -/

/-- The second element shows of itself what is seen of the first one. -/
def SeenAs (s : Sight) (e e' : Element) : Prop := elementView s e = elementView {} e'

theorem forall₂_of_map_eq {α β γ : Type} {f : α → γ} {g : β → γ} {xs : List α} {ys : List β}
    (h : xs.map f = ys.map g) : Forall₂ (fun x y => f x = g y) xs ys := by
  have heq : Forall₂ Eq (xs.map f) (ys.map g) := by rw [h, forall₂_eq_eq_eq]
  exact forall₂_map_left_iff.mp (forall₂_map_right_iff.mp heq)

theorem get?_eq_lookup (tag : Tag) (stem : String) : tag.get? stem = (plainAttributes tag).lookup stem := by
  rw [Tag.get?, Tag.value?, plainAttributes]
  induction tag.attributes with
  | nil => rfl
  | cons a tl ih =>
    obtain ⟨⟨sp, name⟩, v⟩ := a
    cases sp with
    | some sp =>
      rw [find?_cons_of_neg (by simp [Name.label, Name.uri?, Label.plain]), ih]
      rfl
    | none =>
      by_cases hn : stem = name
      · subst hn
        rw [find?_cons_of_pos (by simp [Name.label, Name.uri?, Label.plain])]
        simp
      · rw [find?_cons_of_neg (by simpa [Name.label, Name.uri?, Label.plain] using Ne.symm hn), ih]
        simp [lookup_cons, beq_false_of_ne hn]

section

variable {s : Sight} {e e' : Element}

theorem SeenAs.label (h : SeenAs s e e') : e'.tag.name.label = e.tag.name.label := by
  injection h with hl
  exact hl.symm

theorem SeenAs.plainAttributes_eq (h : SeenAs s e e') : plainAttributes e'.tag = s.attributes e.tag := by
  injection h with _ ha
  rw [ha]
  simp [Sight.attributes]

theorem SeenAs.get? (h : SeenAs s e e') {stem : String}
    (hs : e.tag.name.label = bpmn "process" → stem ≠ "isExecutable") : e'.tag.get? stem = e.tag.get? stem := by
  rw [get?_eq_lookup, get?_eq_lookup, h.plainAttributes_eq, Sight.attributes]
  split
  · next hm =>
    simp only [Bool.and_eq_true, is_iff] at hm
    rw [lookup_append]
    simp [lookup_cons, beq_false_of_ne (hs hm.1.2)]
  · rfl

theorem SeenAs.get?_isExecutable (h : SeenAs s e e') (hp : e.tag.name.label = bpmn "process") :
    e'.tag.get? "isExecutable" = if s.executable then some ((e.tag.get? "isExecutable").getD "true")
      else e.tag.get? "isExecutable" := by
  have hl := get?_eq_lookup e.tag "isExecutable"
  rw [get?_eq_lookup, h.plainAttributes_eq, Sight.attributes]
  cases hs : s.executable with
  | false => simp [hl]
  | true =>
    cases hm : e.tag.get? "isExecutable" with
    | none =>
      rw [hm] at hl
      simp [is_iff.mpr hp, lookup_append, ← hl]
    | some mark =>
      rw [hm] at hl
      simp [← hl]

theorem SeenAs.text? (h : SeenAs s e e') (hl : e.tag.name.label ≠ bpmn "sequenceFlow") : e'.text? = e.text? := by
  have hl' : e'.tag.name.label ≠ bpmn "sequenceFlow" := by rwa [h.label]
  injection h with _ _ ht _
  simpa [Sight.text, hl, hl', Element.text?] using ht.symm

/-- Elements with a label, seen one after the other as those of a second list. -/
def AllSeenAs (s : Sight) (l : Label) (es es' : List Element) : Prop :=
  Forall₂ (fun e e' => e.tag.name.label = l ∧ SeenAs s e e') es es'

variable {l : Label}

theorem SeenAs.findAll (h : SeenAs s e e') (hl : isVisible l) : AllSeenAs s l (e.findAll l) (e'.findAll l) := by
  injection h with _ _ _ hco
  refine (forall₂_and_left _ _).mpr ⟨fun c hc => ?_, forall₂_of_map_eq ?_⟩
  · simpa using (mem_filter.mp hc).2
  · rw [Element.findAll, Element.findAll, Element.children, Element.children,
      ← filter_contentView s hl, ← filter_contentView {} hl, hco]

theorem allSeenAs_below (hl : isVisible l) {ns ns' : List Node} (h : contentView s ns = contentView {} ns') :
    AllSeenAs s l ((elementsBelow ns).filter fun d => d.tag.is l) ((elementsBelow ns').filter fun d => d.tag.is l) := by
  refine (forall₂_and_left _ _).mpr ⟨fun c hc => ?_, forall₂_of_map_eq ?_⟩
  · simpa using (mem_filter.mp hc).2
  · rw [← filter_parts_contentView s hl, ← filter_parts_contentView {} hl, h]

theorem SeenAs.descendants (h : SeenAs s e e') (hl : isVisible l) :
    AllSeenAs s l (e.descendants l) (e'.descendants l) := by
  injection h with _ _ _ hc
  exact allSeenAs_below hl hc

theorem SeenAs.find? (h : SeenAs s e e') (hl : isVisible l) : (e.find? l = none ∧ e'.find? l = none) ∨
    ∃ c c', e.find? l = some c ∧ e'.find? l = some c' ∧ c.tag.name.label = l ∧ SeenAs s c c' := by
  have hh : ∀ d : Element, d.find? l = (d.findAll l).head? := fun d => head?_filter.symm
  rw [hh, hh]
  have ha : AllSeenAs s l (e.findAll l) (e'.findAll l) := h.findAll hl
  generalize e.findAll l = cs, e'.findAll l = cs' at ha
  cases ha with
  | nil => exact Or.inl ⟨rfl, rfl⟩
  | cons hf _ => exact Or.inr ⟨_, _, rfl, rfl, hf⟩

theorem SeenAs.textOf?_find? (h : SeenAs s e e') (hl : isVisible l)
    (hne : l ≠ bpmn "sequenceFlow") : textOf? (e'.find? l) = textOf? (e.find? l) := by
  rcases h.find? hl with ⟨hn, hn'⟩ | ⟨c, c', hc, hc', hla, hs⟩
  · rw [hn, hn']
  · rw [hc, hc', textOf?, textOf?, Option.bind_some, Option.bind_some, hs.text? (hla ▸ hne)]

end

/-! ### Lists side by side -/

section

variable {α β γ : Type} {R : α → β → Prop} {xs : List α} {ys : List β}

theorem map_eq_of_forall₂ {f : α → γ} {g : β → γ} (h : Forall₂ R xs ys)
    (hf : ∀ x y, R x y → g y = f x) : ys.map g = xs.map f := by
  induction h with
  | nil => rfl
  | cons hx _ ih => rw [map_cons, map_cons, hf _ _ hx, ih]

theorem filterMap_eq_of_forall₂ {f : α → Option γ} {g : β → Option γ} (h : Forall₂ R xs ys)
    (hf : ∀ x y, R x y → g y = f x) : ys.filterMap g = xs.filterMap f := by
  induction h with
  | nil => rfl
  | cons hx _ ih => rw [filterMap_cons, filterMap_cons, hf _ _ hx, ih]

theorem mapM_eq_of_forall₂ {f : α → Except Failure γ} {g : β → Except Failure γ}
    (h : Forall₂ R xs ys) (hf : ∀ x y, R x y → g y = f x) : ys.mapM g = xs.mapM f := by
  induction h with
  | nil => rfl
  | cons hx _ ih => rw [mapM_cons, mapM_cons, hf _ _ hx, ih]

end

end ProcessForge.Process
