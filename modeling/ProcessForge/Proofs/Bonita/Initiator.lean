import ProcessForge.Proofs.Bonita.Plans
import ProcessForge.Proofs.Xml.FirstPlace

/-! The actor that starts the process. The step marks one actor and takes no mark away. Main statement: exactly the
    first actor with the id that the lane of a start event refers to is marked, and so there is one mark at most just
    if no other actor had one. -/

namespace ProcessForge.Bonita

open Xml List Option Bool

/-- Whether a tag is one of an actor that starts the process. -/
def isInitiator (tag : Tag) : Bool := isActor tag && tag.get? "initiator" == some "true"

/-- Whether a tag is one of the actor that the model wants. -/
def isWanted (m : Model) (d : Document) (tag : Tag) : Bool :=
  isActor tag && (initiator? m d).any fun id => tag.value? idLabel == some id

def marked (tag : Tag) : Tag := tag.set "initiator" "true"

def markFirst (p : Tag → Bool) : List Tag → List Tag
  | [] => []
  | tag :: rest => if p tag then marked tag :: rest else tag :: markFirst p rest

def tagsOf (d : Document) : List Tag := d.root.node.elements.map Element.tag

section

variable {p : Tag → Bool}

theorem markFirst_eq_self {tags : List Tag} (h : ∀ tag ∈ tags, p tag = false) : markFirst p tags = tags := by
  induction tags with
  | nil => rfl
  | cons tag tl ih =>
    rw [forall_mem_cons] at h
    rw [markFirst, if_neg (by simp [h.1]), ih h.2]

theorem markFirst_append {fr : List Tag} {tag : Tag} (back : List Tag) (h : ∀ tag ∈ fr, p tag = false)
    (ht : p tag) : markFirst p (fr ++ tag :: back) = fr ++ marked tag :: back := by
  induction fr with
  | nil => rw [nil_append, markFirst, if_pos ht, nil_append]
  | cons f fr ih =>
    rw [forall_mem_cons] at h
    rw [cons_append, markFirst, if_neg (by simp [h.1]), ih h.2, cons_append]

/-- The mark is the only thing that changes, and no mark goes away. -/
theorem countP_markFirst (hp : ∀ tag, p tag → isInitiator (marked tag)) (tags : List Tag) :
    (markFirst p tags).countP isInitiator = (if tags.any p then 1 else 0) + (tags.eraseP p).countP isInitiator := by
  induction tags with
  | nil => rfl
  | cons tag tl ih =>
    cases ht : p tag with
    | true => simp [markFirst, ht, hp tag ht, Nat.add_comm]
    | false =>
      simp only [markFirst, ht, countP_cons, ih, any_cons, Bool.false_or, eraseP_cons,
        false_eq_true, if_false, cond_false]
      omega

end

theorem value?_set (tag : Tag) (s v : String) (l : Label) :
    (tag.set s v).value? l = if .plain s = l then some v else tag.value? l :=
  find?_putAttribute (.plain s) v l tag.attributes

theorem isInitiator_marked {tag : Tag} (h : isActor tag) : isInitiator (marked tag) := by
  have ha : isActor (marked tag) = isActor tag := by
    rw [isActor, kindOf, marked, value?_set]
    rfl
  have hm : (marked tag).get? "initiator" = some "true" := by
    rw [marked, Tag.get?, value?_set, if_pos rfl]
  rw [isInitiator, ha, h, hm]
  rfl

theorem planInitiator_plans (m : Model) (d : Document) :
    Plans (planInitiator m d) True (((d.root.places.find? fun pl => isWanted m d pl.element.tag).map fun pl =>
      ⟨pl.path, [.set (.plain "initiator") "true"]⟩).toList) := by
  have hf : ((initiator? m d).bind fun id => (placesOf d "actors").find? fun pl =>
      kindOf pl.element.tag == "process:Actor" && pl.element.tag.value? idLabel == some id)
      = d.root.places.find? fun pl => isWanted m d pl.element.tag := by
    simp only [isWanted, isActor, placesOf]
    cases initiator? m d with
    | none => exact (find?_eq_none.mpr (by simp)).symm
    | some id =>
      simp only [bind_some, any_some, find?_filter, decide_and, Bool.decide_eq_true, Bool.and_assoc]
  rw [planInitiator, hf]
  cases d.root.places.find? fun pl => isWanted m d pl.element.tag with
  | none => exact .pure _
  | some pl => exact (Plans.edit pl _).congr (by decide) rfl

theorem perform_mark (e : Element) (o : Scope) :
    e.node.perform o [⟨[], [.set (.plain "initiator") "true"]⟩] = pure (.element (marked e.tag) e.content) := by
  rw [Element.node, perform_element]
  have hid : ∀ i, jobsAt i [⟨[], [Edit.set (.plain "initiator") "true"]⟩] = [] := fun _ => rfl
  simp only [performFrom_idle e.content 0 fun i _ => hid i]
  rfl

theorem tags_of_firstBecomes {p : Tag → Bool} {old new : List Element}
    (h : FirstBecomes p (fun e n => n = .element (marked e.tag) e.content) old new) :
    new.map Element.tag = markFirst p (old.map Element.tag) := by
  obtain ⟨f, front', e, n, back, rfl, rfl, ht, hf, he, rfl⟩ := h
  have hc : (f ++ e.node.elements ++ back).map Element.tag
      = f.map Element.tag ++ e.tag :: (elementsBelow e.content ++ back).map Element.tag := by
    simp [Element.node]
  rw [hc, markFirst_append _ (by simpa using hf) he]
  simp [ht]

theorem round_initiator (m : Model) (b : Bench) : ∃ b', (Bench.round (planInitiator m)).run b = (.ok (), b') ∧
    tagsOf b'.document = markFirst (isWanted m b.document) (tagsOf b.document) := by
  have hp := planInitiator_plans m b.document
  obtain ⟨u, b', hr⟩ := exists_round_ok hp trivial
  obtain ⟨js, nextId, rfl, hd⟩ := round_ok hp.yields hr
  refine ⟨b', hr, ?_⟩
  rw [hd]
  refine root_of_perform (P := fun n => n.elements.map Element.tag = _) ?_ nextId
  cases hf : b.document.root.places.find? fun pl => isWanted m b.document pl.element.tag with
  | none =>
    refine Gives.pure (markFirst_eq_self fun tag ht => ?_).symm
    obtain ⟨e, he, rfl⟩ := mem_map.mp ht
    exact forall_of_find?_places hf e he
  | some pl =>
    refine (perform_first (R := fun e n => n = .element (marked e.tag) e.content) pl.path hf rfl (by simp)
      fun o => ?_).mono fun n => tags_of_firstBecomes
    exact perform_mark pl.element o ▸ Gives.pure rfl

/-- The first wanted actor is marked and nothing else, and that is the only mark just if no other actor had one. -/
theorem initiator_marked_once_iff (content : Content) (desk : Desk) :
    ∃ desk', (Step.run content .initiator).run desk = (.ok (), desk') ∧ tagsOf desk'.bench.document
        = markFirst (isWanted content.model desk.bench.document) (tagsOf desk.bench.document) ∧
      ((tagsOf desk'.bench.document).countP isInitiator ≤ 1 ↔
        if (tagsOf desk.bench.document).any (isWanted content.model desk.bench.document) then
          ∀ tag ∈ (tagsOf desk.bench.document).eraseP (isWanted content.model desk.bench.document),
            isInitiator tag = false else (tagsOf desk.bench.document).countP isInitiator ≤ 1) := by
  obtain ⟨b', hrun, htags⟩ := round_initiator content.model desk.bench
  refine ⟨{ desk with bench := b' }, by rw [Step.run, run_onBench, hrun], htags, ?_⟩
  have hwanted : ∀ tag, isWanted content.model desk.bench.document tag = true → isInitiator (marked tag) = true :=
    fun tag h => isInitiator_marked (and_eq_true_iff.mp h).1
  rw [htags, countP_markFirst hwanted]
  split
  · have hone : ∀ n, 1 + n ≤ 1 ↔ n = 0 := fun n => by omega
    simp only [hone, countP_eq_zero, not_eq_true]
  · next hnone =>
    have hsame := eraseP_of_forall_not (p := isWanted content.model desk.bench.document)
      (l := tagsOf desk.bench.document) (by simpa using hnone)
    rw [hsame, Nat.zero_add]

/-- A diagram in which the boss starts the process. -/
def bossDiagram : Document := (parseChars true (["<process:MainProcess xmlns:xmi=\"http://www.omg.org/XMI\"",
    " xmlns:process=\"http://www.bonitasoft.org/ns/bpm/process\">", "<elements xmi:type=\"process:Pool\" name=\"P\">",
    "<elements xmi:type=\"process:Lane\" name=\"Clerk\"/>",
    "<actors xmi:type=\"process:Actor\" xmi:id=\"a\" name=\"Clerk\"/>",
    "<actors xmi:type=\"process:Actor\" xmi:id=\"b\" name=\"Boss\" initiator=\"true\"/>", "</elements>",
    "</process:MainProcess>"].flatMap String.toList)).getD default

/-- A model in which the clerk starts the process. -/
def clerkContent : Content :=
  { model := { processes := [{
      id := "p", laneSet := some { lanes := [{ id := "l", name := some "Clerk", nodeRefs := ["s"] }] }
      nodes := [("s", { id := "s", kind := .startEvent })] }] } }

/-- The mark of the actor that started the process before is not taken away. -/
theorem earlier_initiator_kept : (tagsOf bossDiagram).countP isInitiator = 1 ∧
    (generate clerkContent bossDiagram []).1.toOption.map (fun d => (tagsOf d).countP isInitiator) = some 2 := by
  decide +kernel

end ProcessForge.Bonita
