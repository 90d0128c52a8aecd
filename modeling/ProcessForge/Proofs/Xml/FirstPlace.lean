import ProcessForge.Proofs.Xml.Perform

/-! Jobs at the first place of a kind. The element there becomes another node, the elements around it and before it
    keep their tags, and those behind it stay as they are. -/

namespace ProcessForge.Xml

open List

variable {p : Tag → Bool} {R : Element → Node → Prop} {o : Scope} {jobs js : List Job} {place pl : Place}

/-- In document order, the first element of a kind becomes another node. -/
def FirstBecomes (p : Tag → Bool) (R : Element → Node → Prop) (old new : List Element) : Prop :=
  ∃ front front' e node back, old = front ++ e.node.elements ++ back ∧ new = front' ++ node.elements ++ back ∧
    front'.map Element.tag = front.map Element.tag ∧ (∀ other ∈ front, p other.tag = false) ∧ p e.tag = true ∧ R e node

theorem forall_of_find?_places {n : Node} {pa : Path}
    (h : (n.places pa o).find? (fun q => p q.element.tag) = none) : ∀ e ∈ n.elements, p e.tag = false := by
  intro e he
  rw [← places_map_element n pa o] at he
  obtain ⟨q, hq, rfl⟩ := mem_map.mp he
  exact (Bool.not_eq_true _).mp (find?_eq_none.mp h q hq)

/-- The first place of a kind in a content is the first one of a node, and nothing before that node is of the kind. -/
theorem find?_placesFrom : ∀ (ns : List Node) (i : Nat),
    (placesFrom [] o i ns).find? (fun q => p q.element.tag) = some place →
    ∃ pre n post p', ns = pre ++ n :: post ∧ (∀ e ∈ elementsBelow pre, p e.tag = false) ∧
      place = p'.below [i + pre.length] ∧
      (n.places [] o).find? (fun q => p q.element.tag) = some p'
  | [], i, h => by
    cases h
  | n :: tl, i, h => by
    rw [placesFrom_cons, nil_append, find?_append] at h
    cases hn : (n.places [i] o).find? (fun q => p q.element.tag) with
    | some f =>
      rw [hn] at h
      rw [← append_nil [i], places_append, find?_map] at hn
      obtain ⟨p', hp', rfl⟩ := Option.map_eq_some_iff.mp hn
      exact ⟨[], n, tl, p', rfl, by simp, (Option.some.inj h).symm, hp'⟩
    | none =>
      rw [hn] at h
      obtain ⟨pre, b, post, p', rfl, hb, rfl, hp'⟩ := find?_placesFrom tl _ h
      refine ⟨n :: pre, b, post, p', rfl, fun e he => ?_, ?_, hp'⟩
      · exact (mem_append.mp he).elim (forall_of_find?_places hn e) (hb e)
      · rw [length_cons, Nat.add_right_comm, Nat.add_assoc]

theorem performFrom_idle : ∀ (ns : List Node) (pos : Nat), (∀ i, pos ≤ i → jobsAt i jobs = []) →
    performFrom o jobs pos ns = pure ns
  | [], pos, _ => by rw [performFrom]
  | n :: tl, pos, h => by
    rw [performFrom, h pos (Nat.le_refl _), perform_nil, pure_bind,
      performFrom_idle tl _ fun i hi => h i (by omega), pure_bind]

/-- Jobs below one node change that node only. -/
theorem performFrom_at {n : Node} {post : List Node} : ∀ (pre : List Node) (pos : Nat),
    (∀ i, i ≠ pos + pre.length → jobsAt i jobs = []) →
    performFrom o jobs pos (pre ++ n :: post) = do
      let n' ← n.perform o (jobsAt (pos + pre.length) jobs)
      return pre ++ n' :: post
  | [], pos, h => by
    refine bind_congr fun n' => ?_
    rw [performFrom_idle post _ fun i hi => h i (by simp; omega)]
    rfl
  | f :: pre, pos, h => by
    have hl : pos + (f :: pre).length = pos + 1 + pre.length := by simp; omega
    rw [hl] at h ⊢
    rw [cons_append, performFrom, h pos (by omega), perform_nil, performFrom_at pre (pos + 1) h]
    rfl

theorem jobsAt_of_path {i : Nat} {tl : Path} : ∀ {js : List Job}, (∀ job ∈ js, job.path = i :: tl) →
    ownEdits js = [] ∧ jobsAt i js = js.map (fun job => ⟨tl, job.edits⟩) ∧ ∀ j, j ≠ i → jobsAt j js = []
  | [], _ => ⟨rfl, rfl, fun _ _ => rfl⟩
  | ⟨pa, es⟩ :: js, h => by
    rw [forall_mem_cons] at h
    obtain ⟨rfl, hr⟩ : pa = i :: tl ∧ _ := h
    obtain ⟨how, ha, ho⟩ := jobsAt_of_path hr
    refine ⟨how, ?_, fun j hj => ?_⟩
    · rw [jobsAt, filterMap_cons_some (b := ⟨tl, es⟩) (by simp), ← jobsAt, ha, map_cons]
    · rw [jobsAt, filterMap_cons_none (by simp [Ne.symm hj]), ← jobsAt, ho j hj]

theorem FirstBecomes.around {tag : Tag} {pre post : List Node} {n n' : Node}
    (h : FirstBecomes p R n.elements n'.elements) (hta : p tag = false)
    (hb : ∀ e ∈ elementsBelow pre, p e.tag = false) : FirstBecomes p R (Node.element tag (pre ++ n :: post)).elements
      (Node.element tag (pre ++ n' :: post)).elements := by
  obtain ⟨f, front', e, new, back, ho, hn, ht, hf, he, hR⟩ := h
  refine ⟨⟨tag, pre ++ n :: post⟩ :: (elementsBelow pre ++ f),
    ⟨tag, pre ++ n' :: post⟩ :: (elementsBelow pre ++ front'), e, new, back ++ elementsBelow post, ?_, ?_, ?_,
    ?_, he, hR⟩
  · simp [elementsBelow_append, ho]
  · simp [elementsBelow_append, hn]
  · simp [ht]
  · rw [forall_mem_cons, forall_mem_append]
    exact ⟨hta, hb, hf⟩

theorem perform_here {tag : Tag} {ns : List Node} (ht : p tag) (hj : ∀ job ∈ jobs, job.path = [])
    (hR : Gives ((Node.element tag ns).perform o (jobs.map fun job => ⟨[], job.edits⟩)) (R ⟨tag, ns⟩)) :
    Gives ((Node.element tag ns).perform o jobs) fun n' =>
      FirstBecomes p R (Node.element tag ns).elements n'.elements := by
  have hs : jobs.map (fun job => ⟨[], job.edits⟩) = jobs :=
    (map_congr_left fun job hjo => by rw [← hj job hjo]; rfl).trans (map_id _)
  rw [hs] at hR
  refine hR.mono fun n' hn' => ⟨[], [], ⟨tag, ns⟩, n', [], ?_, ?_, rfl, forall_mem_nil _, ht, hn'⟩
  · simp [Element.node]
  · simp

/-- What jobs at the first place of a kind do, if it is known what they do to the element there. The induction is on
    the way to the place. -/
theorem perform_first (pa : Path) : ∀ {n : Node} {o : Scope} {js : List Job} {pl : Place},
    (n.places [] o).find? (fun q => p q.element.tag) = some pl → pl.path = pa → (∀ job ∈ js, job.path = pa) →
    (∀ o, Gives (pl.element.node.perform o (js.map fun job => ⟨[], job.edits⟩)) (R pl.element)) →
    Gives (n.perform o js) fun n' => FirstBecomes p R n.elements n'.elements := by
  induction pa with
  | nil =>
    intro n o js pl hf hp hj hR
    cases n with
    | element tag ns =>
      rw [places_element, find?_cons] at hf
      split at hf
      · next ht =>
        cases hf
        exact perform_here ht hj (hR o)
      · obtain ⟨_, _, _, _, _, _, rfl, _⟩ := find?_placesFrom ns 0 hf
        cases hp
    | text | comment | instruction =>
      cases hf
  | cons i rest ih =>
    intro n o js pl hf hp hj hR
    cases n with
    | element tag ns =>
      rw [places_element, find?_cons] at hf
      split at hf
      · cases hf
        cases hp
      · next ht =>
        obtain ⟨pre, n, post, p', rfl, hb, rfl, hp'⟩ := find?_placesFrom ns 0 hf
        obtain ⟨rfl, rfl⟩ : 0 + pre.length = i ∧ p'.path = rest := cons.inj hp
        obtain ⟨how, ha, ho⟩ := jobsAt_of_path hj
        simp only [perform_element, how, filter_nil, applyEdits, pure_bind, performFrom_at pre 0 ho, ha, bind_assoc]
        refine (ih hp' rfl (by simp) fun o => ?_).bind fun n' hn' => ?_
        · rw [map_map]
          exact hR o
        · exact Gives.pure (hn'.around ht hb)
    | text | comment | instruction =>
      cases hf

end ProcessForge.Xml
