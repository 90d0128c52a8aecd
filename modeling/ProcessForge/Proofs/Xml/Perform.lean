import Mathlib.Data.List.Forall2
import ProcessForge.Proofs.Xml.Tree
import ProcessForge.Xml.Job

/-! What a round of jobs does to a tree. Jobs fit a tree if at every element the edits of this element meet some
    condition. Then every node is related to the node that it becomes, as soon as the edits of one element
    bring the relation about from that of its content. -/

namespace ProcessForge.Xml

open List

variable {α : Type} {P : α → Prop} {x : StateM Supply α} {jobs js : List Job}

/-! ### Results that do not depend on the supply -/

/-- The result of a step meets a condition, whatever ids and short forms are made up. -/
def Gives {α : Type} (x : StateM Supply α) (P : α → Prop) : Prop := ∀ supply, P (x.run supply).1

theorem Gives.pure {a : α} (h : P a) : Gives (Pure.pure a) P := fun _ => h

theorem Gives.bind {β : Type} {f : α → StateM Supply β} {Q : β → Prop} (hx : Gives x P)
    (hf : ∀ a, P a → Gives (f a) Q) : Gives (x >>= f) Q :=
  fun supply => hf _ (hx supply) (x.run supply).2

theorem Gives.mono {Q : α → Prop} (hx : Gives x P) (h : ∀ a, P a → Q a) : Gives x Q := fun supply => h _ (hx supply)

/-! ### Jobs that fit a tree -/

mutual

/-- The edits of every element of a node meet a condition. -/
def Node.Fits (K : Element → List Edit → Prop) (jobs : List Job) : Node → Prop
  | .element tag content => K ⟨tag, content⟩ (ownEdits jobs) ∧ FitsFrom K jobs 0 content
  | _ => True

/-- The edits of every element in a content meet a condition, from a position on. -/
def FitsFrom (K : Element → List Edit → Prop) (jobs : List Job) (position : Nat) : List Node → Prop
  | [] => True
  | node :: rest => node.Fits K (jobsAt position jobs) ∧ FitsFrom K jobs (position + 1) rest

end

variable {n : Node} {pos : Nat} {job : Job}

theorem fits_leaf (K : Element → List Edit → Prop) (jobs : List Job) (h : n.element? = none) : n.Fits K jobs := by
  cases n with
  | element tag ns => cases h
  | text | comment | instruction => simp [Node.Fits]

mutual

theorem Node.Fits.mono {K K' : Element → List Edit → Prop} (h : ∀ e own, K e own → K' e own) :
    ∀ (n : Node) {js : List Job}, n.Fits K js → n.Fits K' js
  | .element _ ns, _, hf => ⟨h _ _ hf.1, FitsFrom.mono h ns 0 hf.2⟩
  | .text _, _, _ | .comment _, _, _ | .instruction _ _, _, _ => fits_leaf _ _ rfl

theorem FitsFrom.mono {K K' : Element → List Edit → Prop} (h : ∀ e own, K e own → K' e own) :
    ∀ (ns : List Node) {js : List Job} (pos : Nat), FitsFrom K js pos ns →
    FitsFrom K' js pos ns
  | [], _, _, _ => by trivial
  | n :: tl, js, pos, hf => ⟨Node.Fits.mono h n hf.1, FitsFrom.mono h tl _ hf.2⟩

end

/-- Below an element only the jobs at its positions count. -/
theorem fitsFrom_congr {K : Element → List Edit → Prop} {jobs' : List Job} (h : ∀ i, jobsAt i jobs' = jobsAt i js) :
    ∀ (ns : List Node) (pos : Nat),
    FitsFrom K js pos ns → FitsFrom K jobs' pos ns
  | [], _, _ => by trivial
  | n :: tl, pos, hf => ⟨(h pos).symm ▸ hf.1, fitsFrom_congr h tl _ hf.2⟩

theorem mem_ownEdits {e : Edit} (h : e ∈ ownEdits jobs) : ∃ job ∈ jobs, e ∈ job.edits := by
  obtain ⟨job, hj, he⟩ := mem_flatMap.mp h
  exact ⟨job, (mem_filter.mp hj).1, he⟩

theorem edits_of_mem_jobsAt (h : job ∈ jobsAt pos jobs) : ∃ job' ∈ jobs, job'.edits = job.edits := by
  obtain ⟨job', hj', hp⟩ := mem_filterMap.mp h
  refine ⟨job', hj', ?_⟩
  split at hp
  · split at hp
    · rw [← Option.some.inj hp]
    · cases hp
  · cases hp

mutual

theorem fits_of_forall {Q : Edit → Prop} {G : Element → Prop} : ∀ (n : Node) (js : List Job),
    (∀ job ∈ js, ∀ ed ∈ job.edits, Q ed) → (∀ e ∈ n.elements, G e) →
    n.Fits (fun e own => G e ∧ ∀ ed ∈ own, Q ed) js
  | .element tag ns, js, hj, hG => by
    refine ⟨⟨hG _ (by simp), fun ed hed => ?_⟩, fitsFrom_of_forall ns js 0 hj fun e he => hG e (by simp [he])⟩
    obtain ⟨job, hjo, hm⟩ := mem_ownEdits hed
    exact hj job hjo ed hm
  | .text _, js, _, _ | .comment _, js, _, _ | .instruction _ _, js, _, _ => fits_leaf _ js rfl

theorem fitsFrom_of_forall {Q : Edit → Prop} {G : Element → Prop} : ∀ (ns : List Node) (js : List Job) (pos : Nat),
    (∀ job ∈ js, ∀ ed ∈ job.edits, Q ed) → (∀ e ∈ elementsBelow ns, G e) →
    FitsFrom (fun e own => G e ∧ ∀ ed ∈ own, Q ed) js pos ns
  | [], _, _, _, _ => by trivial
  | n :: tl, js, pos, hj, hG => by
    refine ⟨fits_of_forall n _ (fun job hjo ed hedi => ?_) fun e he => hG e (by simp [he]),
      fitsFrom_of_forall tl js _ hj fun e he => hG e (by simp [he])⟩
    obtain ⟨job', hj', hed⟩ := edits_of_mem_jobsAt hjo
    exact hj job' hj' ed (hed ▸ hedi)

end

/-! ### Doing the jobs -/

theorem applyEdits_invariant {I : Tag → List Node → Prop} {o : Scope} : ∀ {es : List Edit},
    (∀ e ∈ es, ∀ tag ns, I tag ns → Gives (e.apply o tag ns) fun r => I r.1 r.2) →
    ∀ {tag : Tag} {ns : List Node}, I tag ns → Gives (applyEdits o tag ns es) fun r => I r.1 r.2
  | [], _, tag, ns, hI => Gives.pure hI
  | e :: tl, h, tag, ns, hI => by
    rw [forall_mem_cons] at h
    exact (h.1 tag ns hI).bind fun r hr => applyEdits_invariant h.2 hr

theorem perform_nil (o : Scope) (node : Node) : node.perform o [] = pure node := by
  cases node with
  | element tag ns =>
    rfl
  | text | comment | instruction => simp [Node.perform]

theorem performFrom_nil (o : Scope) : ∀ (ns : List Node) (pos : Nat), performFrom o [] pos ns = pure ns
  | [], pos => by rw [performFrom]
  | n :: tl, pos => by
    have hj : jobsAt pos [] = [] := rfl
    rw [performFrom, hj, perform_nil, pure_bind, performFrom_nil o tl, pure_bind]

/-- An element is done in three steps: the edits of its tag, its content, and the other edits. -/
theorem perform_element (o : Scope) (js : List Job) (tag : Tag) (content : List Node) :
    Node.perform o js (.element tag content) = do
      let (tag, _) ← applyEdits o tag [] ((ownEdits js).filter Edit.isOfTag)
      let content ← performFrom (tag.layer :: o) js 0 content
      let (tag, content) ← applyEdits o tag content ((ownEdits js).filter fun e => !e.isOfTag)
      return .element tag content := by
  cases js with
  | nil =>
    rw [perform_nil]
    simp [ownEdits, applyEdits, performFrom_nil]
  | cons job js =>
    rfl

section

variable {K : Element → List Edit → Prop} {T : Element → List Edit → Tag → Prop} {R : Node → Node → Prop}

mutual

theorem Node.Fits.perform (hl : ∀ n : Node, n.element? = none → R n n) (ht : ∀ o e own, K e own →
      Gives (applyEdits o e.tag [] (own.filter Edit.isOfTag)) fun r => T e own r.1)
    (he : ∀ o e own tag ns, K e own → T e own tag → Forall₂ R e.content ns →
      Gives (applyEdits o tag ns (own.filter fun ed => !ed.isOfTag)) fun r => R e.node (.element r.1 r.2)) :
    ∀ (n : Node) (o : Scope) (js : List Job), n.Fits K js → Gives (n.perform o js) (R n)
  | .element tag ns, o, js, h => by
    rw [perform_element]
    refine (ht o ⟨tag, ns⟩ _ h.1).bind fun r hr => ?_
    refine (FitsFrom.perform hl ht he ns _ js 0 h.2).bind fun t hin => ?_
    refine (he o ⟨tag, ns⟩ _ r.1 t h.1 hr hin).bind fun r hr => ?_
    exact Gives.pure hr
  | .text _, o, js, _ | .comment _, o, js, _ | .instruction _ _, o, js, _ => by
    rw [Node.perform]
    · exact Gives.pure (hl _ rfl)
    · exact nofun

theorem FitsFrom.perform (hl : ∀ n : Node, n.element? = none → R n n) (ht : ∀ o e own, K e own →
      Gives (applyEdits o e.tag [] (own.filter Edit.isOfTag)) fun r => T e own r.1)
    (he : ∀ o e own tag ns, K e own → T e own tag → Forall₂ R e.content ns →
      Gives (applyEdits o tag ns (own.filter fun ed => !ed.isOfTag)) fun r => R e.node (.element r.1 r.2)) :
    ∀ (ns : List Node) (o : Scope) (js : List Job) (pos : Nat), FitsFrom K js pos ns →
      Gives (performFrom o js pos ns) (Forall₂ R ns)
  | [], o, js, pos, _ => Gives.pure .nil
  | n :: tl, o, js, pos, h => by
    refine (Node.Fits.perform hl ht he n o _ h.1).bind fun n' hn => ?_
    refine (FitsFrom.perform hl ht he tl o js _ h.2).bind fun tl' hr => ?_
    exact Gives.pure (.cons hn hr)

end

end

theorem perform_isElement (e : Element) (o : Scope) (js : List Job) :
    Gives (e.node.perform o js) fun n => ∃ e', n = Element.node e' := by
  rw [Element.node, perform_element]
  intro supply
  exact ⟨⟨_, _⟩, rfl⟩

theorem root_of_perform {d : Document} {P : Node → Prop} (h : Gives (d.root.node.perform [] jobs) P) (nextId : Nat) :
    P (d.perform nextId jobs).1.root.node := by
  obtain ⟨e, he⟩ := perform_isElement d.root [] jobs ⟨nextId, d.coined⟩
  have hr : (d.perform nextId jobs).1.root = e := by
    rw [Document.perform]
    simp only [Id.run, he]
    rfl
  rw [hr, ← he]
  exact h ⟨nextId, d.coined⟩

/-! ### Jobs at the places of a tree -/

@[simp] theorem places_element (p : Path) (o : Scope) (tag : Tag) (content : List Node) :
    Node.places p o (.element tag content) = ⟨p, o, ⟨tag, content⟩⟩ :: placesFrom p (tag.layer :: o) 0 content := by
  rw [Node.places]

@[simp] theorem placesFrom_nil (p : Path) (o : Scope) (pos : Nat) : placesFrom p o pos [] = [] := by rw [placesFrom]

@[simp] theorem placesFrom_cons (p : Path) (o : Scope) (pos : Nat) (n : Node) (rest : List Node) :
    placesFrom p o pos (n :: rest) = n.places (p ++ [pos]) o ++ placesFrom p o (pos + 1) rest := by
  rw [placesFrom]

def Place.below (place : Place) (path : Path) : Place := { place with path := path ++ place.path }

mutual

theorem places_append (p : Path) : ∀ (n : Node) (way : Path) (o : Scope),
    n.places (p ++ way) o = (n.places way o).map (·.below p)
  | .element tag ns, way, o => by
    simp [Place.below, placesFrom_append p ns way]
  | .text _, way, o | .comment _, way, o | .instruction _ _, way, o => by
    rfl

theorem placesFrom_append (p : Path) : ∀ (ns : List Node) (way : Path) (o : Scope)
    (pos : Nat), placesFrom (p ++ way) o pos ns = (placesFrom way o pos ns).map (·.below p)
  | [], way, o, pos => by simp
  | n :: tl, way, o, pos => by
    rw [placesFrom_cons, placesFrom_cons, append_assoc, places_append p n, placesFrom_append p tl, map_append]

end

theorem path_of_mem_placesFrom (o : Scope) : ∀ (ns : List Node) (pos : Nat) (p : Place),
    p ∈ placesFrom [] o pos ns → ∃ i tl, pos ≤ i ∧ p.path = i :: tl
  | [], _, _, h => by cases h
  | n :: tl, pos, p, h => by
    rw [placesFrom_cons, nil_append, ← append_nil [pos], places_append, mem_append] at h
    rcases h with h | h
    · obtain ⟨p', -, rfl⟩ := mem_map.mp h
      exact ⟨pos, p'.path, Nat.le_refl _, rfl⟩
    · obtain ⟨i, pa, hi, hp⟩ := path_of_mem_placesFrom o tl _ p h
      exact ⟨i, pa, by omega, hp⟩

theorem path_of_mem_jobsAt (h : job ∈ jobsAt pos jobs) : ⟨pos :: job.path, job.edits⟩ ∈ jobs := by
  obtain ⟨⟨p, es⟩, hj, hf⟩ := mem_filterMap.mp h
  cases p with
  | nil => cases hf
  | cons f tl =>
    by_cases hfi : f = pos
    · subst hfi
      simp only [beq_self_eq_true, if_true, Option.some.injEq] at hf
      rw [← hf]
      exact hj
    · simp [hfi] at hf

mutual

/-- Jobs fit a node if each is at a place of it, and its edits are fit for the element there. -/
theorem fits_of_places {Q : Element → Edit → Prop} : ∀ (n : Node) (o : Scope) (js : List Job),
    (∀ job ∈ js, ∃ p ∈ n.places [] o, p.path = job.path ∧ ∀ ed ∈ job.edits, Q p.element ed) →
    n.Fits (fun e own => ∀ ed ∈ own, Q e ed) js
  | .element tag ns, o, js, h => by
    constructor
    · intro ed he
      obtain ⟨job, hj, hm⟩ := mem_flatMap.mp he
      obtain ⟨hj, hpa⟩ := mem_filter.mp hj
      obtain ⟨p, hp, heq, hQ⟩ := h job hj
      rw [places_element, mem_cons] at hp
      rcases hp with rfl | hp
      · exact hQ ed hm
      · obtain ⟨i, tl, -, hn⟩ := path_of_mem_placesFrom _ ns 0 p hp
        rw [← heq, hn] at hpa
        cases hpa
    · refine fitsFrom_of_places ns (tag.layer :: o) js 0 fun job hj i tl hpa _ => ?_
      obtain ⟨p, hp, heq, hQ⟩ := h job hj
      rw [places_element, mem_cons] at hp
      rcases hp with rfl | hp
      · rw [← heq] at hpa
        cases hpa
      · exact ⟨p, hp, heq.trans hpa, hQ⟩
  | .text _, _, js, _ | .comment _, _, js, _ | .instruction _ _, _, js, _ => fits_leaf _ js rfl

theorem fitsFrom_of_places {Q : Element → Edit → Prop} : ∀ (ns : List Node) (o : Scope) (js : List Job)
    (pos : Nat), (∀ job ∈ js, ∀ i tl, job.path = i :: tl → pos ≤ i → ∃ p ∈ placesFrom [] o pos ns, p.path = i :: tl ∧
        ∀ ed ∈ job.edits, Q p.element ed) →
    FitsFrom (fun e own => ∀ ed ∈ own, Q e ed) js pos ns
  | [], _, _, _, _ => by trivial
  | n :: others, o, js, pos, h => by
    have hpl : placesFrom [] o pos (n :: others)
        = (n.places [] o).map (·.below [pos]) ++ placesFrom [] o (pos + 1) others := by
      rw [placesFrom_cons, nil_append, ← places_append, append_nil]
    rw [hpl] at h
    refine ⟨fits_of_places n o _ fun job hj => ?_, fitsFrom_of_places others o js _ fun job hj i tl hpa hi => ?_⟩
    · obtain ⟨p, hp, hpa, hQ⟩ := h _ (path_of_mem_jobsAt hj) pos job.path rfl (Nat.le_refl _)
      rcases mem_append.mp hp with hp | hp
      · obtain ⟨p', hp', rfl⟩ := mem_map.mp hp
        exact ⟨p', hp', tail_eq_of_cons_eq hpa, hQ⟩
      · obtain ⟨i, tl, hi, heq⟩ := path_of_mem_placesFrom o others _ p hp
        have hf := head_eq_of_cons_eq (heq.symm.trans hpa)
        omega
    · obtain ⟨p, hp, heq, hQ⟩ := h job hj i tl hpa (by omega)
      rcases mem_append.mp hp with hp | hp
      · obtain ⟨p', -, rfl⟩ := mem_map.mp hp
        have hf := head_eq_of_cons_eq heq
        omega
      · exact ⟨p, hp, heq, hQ⟩

end

/-- The jobs that plan rows of edits at some places, one job for each row. -/
def jobsWith (rows : Element → List (List Edit)) (places : List Place) : List Job :=
  places.flatMap fun place => (rows place.element).map (Job.mk place.path)

theorem jobsWith_cons (rows : Element → List (List Edit)) (p : Place) (places : List Place) :
    jobsWith rows (p :: places) = (rows p.element).map (Job.mk p.path) ++ jobsWith rows places :=
  flatMap_cons

theorem jobsWith_append (rows : Element → List (List Edit)) (places places' : List Place) :
    jobsWith rows (places ++ places') = jobsWith rows places ++ jobsWith rows places' :=
  flatMap_append

theorem jobsAt_append (pos : Nat) (js jobs' : List Job) :
    jobsAt pos (js ++ jobs') = jobsAt pos js ++ jobsAt pos jobs' :=
  filterMap_append

theorem ownEdits_append (js jobs' : List Job) : ownEdits (js ++ jobs') = ownEdits js ++ ownEdits jobs' := by
  simp [ownEdits]

theorem ownEdits_jobsWith_below (rows : Element → List (List Edit)) (pos : Nat)
    (places : List Place) : ownEdits (jobsWith rows (places.map (·.below [pos]))) = [] := by
  have hn : (jobsWith rows (places.map (·.below [pos]))).filter (fun job => job.path.isEmpty) = [] := by
    refine filter_eq_nil_iff.mpr fun job hj => ?_
    obtain ⟨p, hp, hj⟩ := mem_flatMap.mp hj
    obtain ⟨p', -, rfl⟩ := mem_map.mp hp
    obtain ⟨row, -, rfl⟩ := mem_map.mp hj
    simp [Place.below]
  rw [ownEdits, hn, flatMap_nil]

theorem jobsAt_jobsWith_below (rows : Element → List (List Edit)) (pos : Nat)
    (places : List Place) (i : Nat) : jobsAt i (jobsWith rows (places.map (·.below [pos])))
      = if i = pos then jobsWith rows places else [] := by
  induction places with
  | nil => simp [jobsWith, jobsAt]
  | cons p places ih =>
    have hp : jobsAt i (jobsWith rows [p.below [pos]]) = if i = pos then jobsWith rows [p] else [] := by
      by_cases hi : i = pos
      · simp [jobsWith, Place.below, jobsAt, filterMap_map, hi]
      · simp [jobsWith, Place.below, jobsAt, filterMap_map, hi, Ne.symm hi]
    rw [map_cons, ← singleton_append, jobsWith_append, jobsAt_append, ih, hp]
    split
    · exact (jobsWith_append rows [p] places).symm
    · rfl

theorem ownEdits_jobsWith_placesFrom (rows : Element → List (List Edit)) (o : Scope) : ∀ (ns : List Node) (pos : Nat),
    ownEdits (jobsWith rows (placesFrom [] o pos ns)) = []
  | [], pos => by rfl
  | n :: tl, pos => by
    rw [placesFrom_cons, nil_append, ← append_nil [pos], places_append, jobsWith_append,
      ownEdits_append, ownEdits_jobsWith_below, ownEdits_jobsWith_placesFrom rows o tl]
    rfl

theorem jobsAt_jobsWith_placesFrom (rows : Element → List (List Edit)) (o : Scope) : ∀ (ns : List Node) (pos i : Nat),
    jobsAt i (jobsWith rows (placesFrom [] o pos ns)) = if i < pos then []
        else jobsWith rows (((ns[i - pos]?).map (Node.places [] o)).getD [])
  | [], pos, i => by simp [jobsWith, jobsAt]
  | n :: tl, pos, i => by
    rw [placesFrom_cons, nil_append, ← append_nil [pos], places_append, jobsWith_append,
      jobsAt_append, jobsAt_jobsWith_below, jobsAt_jobsWith_placesFrom rows o tl]
    rcases Nat.lt_trichotomy i pos with hl | rfl | hg
    · simp [hl, Nat.lt_succ_of_lt hl, Nat.ne_of_lt hl]
    · simp
    · have hin : i - pos = (i - (pos + 1)) + 1 := by omega
      rw [if_neg (by omega), if_neg (by omega), if_neg (by omega), hin, getElem?_cons_succ, nil_append]

mutual

theorem fits_jobsWith (rows : Element → List (List Edit)) : ∀ (n : Node) (o : Scope),
    n.Fits (fun e own => own = (rows e).flatten) (jobsWith rows (n.places [] o))
  | .element tag ns, o => by
    have hs : jobsWith rows (Node.places [] o (.element tag ns)) = (rows ⟨tag, ns⟩).map (Job.mk []) ++
          jobsWith rows (placesFrom [] (tag.layer :: o) 0 ns) := by
      rw [places_element, jobsWith_cons]
    have hh : ∀ i, jobsAt i ((rows ⟨tag, ns⟩).map (Job.mk [])) = [] := by
      simp [jobsAt, filterMap_map]
    rw [Node.Fits, hs, ownEdits_append, ownEdits_jobsWith_placesFrom]
    refine ⟨?_, fitsFrom_jobsWith rows ns (tag.layer :: o) _ 0 fun i => ?_⟩
    · simp [ownEdits, filter_map, Function.comp_def, flatMap_map, flatMap_id']
    · rw [jobsAt_append, hh, jobsAt_jobsWith_placesFrom]
      simp
  | .text _, o | .comment _, o | .instruction _ _, o => fits_leaf _ _ rfl

theorem fitsFrom_jobsWith (rows : Element → List (List Edit)) :
    ∀ (ns : List Node) (o : Scope) (js : List Job) (pos : Nat),
    (∀ i, jobsAt (pos + i) js = jobsWith rows (((ns[i]?).map (Node.places [] o)).getD [])) →
    FitsFrom (fun e own => own = (rows e).flatten) js pos ns
  | [], _, _, _, _ => by trivial
  | n :: tl, o, js, pos, h => by
    have hf : jobsAt pos js = jobsWith rows (n.places [] o) := by simpa using h 0
    rw [FitsFrom, hf]
    refine ⟨fits_jobsWith rows n o, fitsFrom_jobsWith rows tl o js _ fun i => ?_⟩
    rw [Nat.add_assoc, Nat.add_comm 1 i, h (i + 1), getElem?_cons_succ]

end

mutual

theorem Node.Fits.append {es es' : Element → List Edit} : ∀ (n : Node) {js jobs' : List Job},
    n.Fits (fun e own => own = es e) js → n.Fits (fun e own => own = es' e) jobs' →
    n.Fits (fun e own => own = es e ++ es' e) (js ++ jobs')
  | .element tag ns, js, jobs', h, h' => ⟨by rw [ownEdits_append, h.1, h'.1], FitsFrom.append ns 0 h.2 h'.2⟩
  | .text _, _, _, _, _ | .comment _, _, _, _, _ | .instruction _ _, _, _, _, _ => fits_leaf _ _ rfl

theorem FitsFrom.append {es es' : Element → List Edit} : ∀ (ns : List Node) {js jobs' : List Job}
    (pos : Nat), FitsFrom (fun e own => own = es e) js pos ns →
    FitsFrom (fun e own => own = es' e) jobs' pos ns →
    FitsFrom (fun e own => own = es e ++ es' e) (js ++ jobs') pos ns
  | [], _, _, _, _, _ => by trivial
  | n :: tl, js, jobs', pos, h, h' => by
    rw [FitsFrom] at h h' ⊢
    rw [jobsAt_append]
    exact ⟨Node.Fits.append n h.1 h'.1, FitsFrom.append tl _ h.2 h'.2⟩

end

def jobsFor (edits : Element → Option (List Edit)) (places : List Place) : List Job :=
  places.filterMap fun place => (edits place.element).map (Job.mk place.path)

theorem jobsFor_eq (es : Element → Option (List Edit)) (places : List Place) :
    jobsFor es places = jobsWith (fun e => (es e).toList) places := by
  induction places with
  | nil => rfl
  | cons p places ih =>
    rw [jobsFor, filterMap_cons, ← jobsFor, ih, jobsWith_cons]
    cases es p.element with
    | none => rfl
    | some own => rfl

theorem fits_jobsFor (es : Element → Option (List Edit)) (n : Node) (o : Scope) :
    n.Fits (fun e own => own = (es e).getD []) (jobsFor es (n.places [] o)) := by
  have hr : ∀ e, (es e).toList.flatten = (es e).getD [] := fun e => by cases es e <;> simp
  simp only [jobsFor_eq, ← hr]
  exact fits_jobsWith (fun e => (es e).toList) n o

mutual

theorem places_map_element : ∀ (n : Node) (p : Path) (o : Scope), (n.places p o).map Place.element = n.elements
  | .element tag ns, p, o => by
    rw [places_element, map_cons, elements_element, placesFrom_map_element ns]
  | .text _, _, _ | .comment _, _, _ | .instruction _ _, _, _ => by rfl

theorem placesFrom_map_element : ∀ (ns : List Node) (p : Path) (o : Scope) (pos : Nat),
    (placesFrom p o pos ns).map Place.element = elementsBelow ns
  | [], _, _, _ => by simp
  | n :: tl, p, o, pos => by
    rw [placesFrom_cons, map_append, elementsBelow_cons, places_map_element n, placesFrom_map_element tl]

end

mutual

/-- The layers at a place are those of elements of the tree, and then those around the tree. -/
theorem layers_of_mem_places : ∀ (n : Node) (pa : Path) (o : Scope) (p : Place),
    p ∈ n.places pa o → ∃ ls, p.element.tag.layer :: p.outer = ls ++ o ∧ ∀ l ∈ ls, ∃ e ∈ n.elements, l = e.tag.layer
  | .element tag ns, pa, o, p, h => by
    rw [places_element, mem_cons] at h
    rcases h with rfl | h
    · exact ⟨[tag.layer], rfl, by simp⟩
    · obtain ⟨ls, heq, hla⟩ := layers_of_mem_placesFrom ns pa _ 0 p h
      refine ⟨ls ++ [tag.layer], by rw [heq, append_assoc, singleton_append], ?_⟩
      rw [forall_mem_append, forall_mem_singleton]
      refine ⟨fun l hl => ?_, ⟨tag, ns⟩, mem_cons_self .., rfl⟩
      obtain ⟨e, he, hl⟩ := hla l hl
      exact ⟨e, mem_cons_of_mem _ he, hl⟩
  | .text _, pa, o, p, h | .comment _, pa, o, p, h | .instruction _ _, pa, o, p, h => by
    cases h

theorem layers_of_mem_placesFrom : ∀ (ns : List Node) (pa : Path) (o : Scope)
    (pos : Nat) (p : Place), p ∈ placesFrom pa o pos ns →
    ∃ ls, p.element.tag.layer :: p.outer = ls ++ o ∧ ∀ l ∈ ls, ∃ e ∈ elementsBelow ns, l = e.tag.layer
  | [], _, _, _, _, h => by cases h
  | n :: tl, pa, o, pos, p, h => by
    rw [placesFrom_cons, mem_append] at h
    simp only [elementsBelow_cons, mem_append, or_and_right, exists_or]
    rcases h with h | h
    · obtain ⟨ls, heq, hl⟩ := layers_of_mem_places n _ o p h
      exact ⟨ls, heq, fun l hla => Or.inl (hl l hla)⟩
    · obtain ⟨ls, heq, hl⟩ := layers_of_mem_placesFrom tl pa o _ p h
      exact ⟨ls, heq, fun l hla => Or.inr (hl l hla)⟩

end

/-- In a whole tree, all layers at a place are those of elements, and the one of the root is among them. -/
theorem scope_of_mem_places {root : Element} {p : Place} (h : p ∈ root.places) :
    (∀ l ∈ p.element.tag.layer :: p.outer, ∃ e ∈ root.node.elements, l = e.tag.layer) ∧
    root.tag.layer ∈ p.element.tag.layer :: p.outer := by
  obtain ⟨ls, heq, hl⟩ := layers_of_mem_places root.node [] [] p h
  refine ⟨by rwa [heq, append_nil], ?_⟩
  rw [Element.places, Element.node, places_element, mem_cons] at h
  rcases h with rfl | h
  · exact mem_cons_self ..
  · obtain ⟨t, heq, -⟩ := layers_of_mem_placesFrom root.content [] _ 0 p h
    rw [heq]
    simp

end ProcessForge.Xml
