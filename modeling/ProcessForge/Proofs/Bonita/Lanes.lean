import ProcessForge.Proofs.Bonita.Initiator

/-! Lanes and their actors. Actors are looked for among the children of the first pool, the missing ones are added
    there, and then all lanes of the diagram are linked. Main statement: every lane with a name is linked to the actor
    of its name, and one actor is added for every name that has none. -/

namespace ProcessForge.Bonita

open Xml List Bool OrderedMap Text
open Option (isSome_iff_exists some_or filter_eq_some_iff some.inj map_eq_some_iff some.injEq)

/-! ### Ids that are made up -/

theorem numeral_padNumber (width n : Nat) : numeral (padNumber width n).toList = n := by
  rw [padNumber, String.toList_append, String.toList_ofList, numeral_append, numeral_zeros,
    Nat.zero_mul, Nat.zero_add, Nat.toString_eq_ofList_toDigits, String.toList_ofList, numeral_toDigits]

theorem madeUpId_injective {i j : Nat} (h : madeUpId i = madeUpId j) : i = j := by
  have hn : padNumber 17 i = padNumber 17 j := (String.append_right_inj idMark).mp h
  rw [← numeral_padNumber 17 i, hn, numeral_padNumber]

theorem isAllowedText_madeUpId (n : Nat) : isAllowedText (madeUpId n) := by
  have hd : ∀ c ∈ Nat.toDigits 10 n, isAllowed c := by
    intro c hc
    have hr := Char.isDigit_iff_toNat.mp (Nat.isDigit_of_mem_toDigits (by decide) (by decide) hc)
    have hl : 48 ≤ c.toNat := hr.1
    have hh : c.toNat ≤ 57 := hr.2
    simp only [isAllowed, or_eq_true, and_eq_true, decide_eq_true_eq, bne_iff_ne]
    omega
  rw [isAllowedText, madeUpId, padNumber, String.toList_append, String.toList_append, String.toList_ofList,
    Nat.toString_eq_ofList_toDigits, String.toList_ofList, all_append, all_append, all_eq_true.mpr hd]
  have hz : isAllowed '0' := rfl
  have hm : idMark.toList.all isAllowed := by decide
  simp [hz, hm]

/-! ### Planning the actors -/

/-- The name of an element, unless it is empty. -/
def name? (tag : Tag) : Option String := (tag.get? "name").filter (· != "")

/-- Ids for names, from a number on. -/
def newActors (first : Nat) (names : List String) : OrderedMap String :=
  (names.zipIdx first).map fun entry => (entry.1, madeUpId entry.2)

/-- The names among some that neither of two maps has, each once. -/
def missing (existing actors : Actors) (names : List String) : List String :=
  (names.filter fun name => !existing.has name && !actors.has name).eraseDups

/-- The id of a name after some names: the one that it has, or that of the pool, or a new one. -/
def idAfter? (existing actors : Actors) (first : Nat) (names : List String) (name : String) : Option (Option String) :=
  (actors.value? name).or (if name ∈ names then
    (existing.value? name).or (((newActors first (missing existing actors names)).value? name).map some) else none)

def actorJob (path : Path) (entry : String × String) : Job := ⟨path, [.append (actorDraft entry.2 entry.1)]⟩

section

variable {e actors : Actors} {name : String} {names : List String} {first f : Nat} {id : Option String}

theorem missing_cons_of_has (h : (e.has name || actors.has name)) :
    missing e actors (name :: names) = missing e actors names := by
  rw [missing, filter_cons_of_neg (by rw [← Bool.not_or, h]; decide), missing]

theorem missing_cons (h : (e.has name || actors.has name) = false) (id : Option String) :
    missing e actors (name :: names) = name :: missing e (actors.put name id) names := by
  rw [missing, filter_cons_of_pos (by rw [← Bool.not_or, h]; decide), eraseDups_cons, filter_filter]
  congr 3
  funext other
  rw [has_put, BEq.comm, Bool.not_or, Bool.and_comm, Bool.and_assoc]

theorem missing_put (h : e.has name) (id : Option String) :
    missing e (actors.put name id) names = missing e actors names := by
  rw [missing]
  congr 2
  funext other
  by_cases ho : name = other
  · simp [← ho, h]
  · rw [has_put, beq_false_of_ne ho, Bool.or_false]

theorem idAfter?_of_has (h : actors.has name) :
    idAfter? e actors first (name :: names) = idAfter? e actors first names := by
  funext other
  rw [idAfter?, idAfter?, missing_cons_of_has (by rw [h, Bool.or_true])]
  by_cases ho : other = name
  · rw [← isSome_value?, ← ho] at h
    obtain ⟨id, hid⟩ := isSome_iff_exists.mp h
    rw [hid, some_or, some_or]
  · simp [ho]

theorem idAfter?_existing (h : actors.has name = false) (hid : e.value? name = some id) :
    idAfter? e actors first (name :: names) = idAfter? e (actors.put name id) first names := by
  have hh : e.has name := by rw [← isSome_value?, hid]; rfl
  have hn : actors.value? name = none := by simpa [← isSome_value?] using h
  funext other
  rw [idAfter?, idAfter?, missing_cons_of_has (by rw [hh, Bool.true_or]), missing_put hh, OrderedMap.value?_put]
  by_cases ho : other = name
  · simp [ho, hn, hid]
  · simp [ho, Ne.symm ho]

theorem idAfter?_new (h : actors.has name = false) (hid : e.value? name = none) : idAfter? e actors f (name :: names)
      = idAfter? e (actors.put name (some (madeUpId f))) (f + 1) names := by
  have hh : e.has name = false := by rw [← isSome_value?, hid]; rfl
  have hn : actors.value? name = none := by simpa [← isSome_value?] using h
  funext other
  rw [idAfter?, idAfter?, missing_cons (by rw [hh, h]; rfl) (some (madeUpId f)), OrderedMap.value?_put]
  by_cases ho : other = name
  · simp [ho, hn, hid, newActors, value?]
  · simp [ho, Ne.symm ho, newActors, value?]

end

theorem run_edit {p : Place} {es : List Edit} (h : (cutEdits es).2) (pl : Plan) :
    (Planning.edit p es).run pl = (.ok (), { pl with jobs := pl.jobs ++ [⟨p.path, es⟩] }) := by
  have hc : cutEdits es = (es, true) := Prod.ext (cutEdits_whole es h) h
  rw [Planning.edit, hc]
  rfl

variable {pool l : Place} {e actors : Actors}

theorem run_addActor_none (hn : name? l.element.tag = none) (p : Plan) :
    (addActor pool e actors l).run p = (.ok actors, p) := by
  unfold addActor
  split
  · rfl
  · rfl
  · next name hne hs => simp_all [name?]

theorem run_addActor {name : String} (hn : name? l.element.tag = some name) (ha : isAllowedText name) (p : Plan) :
    (addActor pool e actors l).run p = if actors.has name then (.ok actors, p) else
      match e.value? name with
      | some id => (.ok (actors.put name id), p)
      | none => (.ok (actors.put name (some (madeUpId p.nextId))), { p with
          nextId := p.nextId + 1, jobs := p.jobs ++ [actorJob pool.path (name, madeUpId p.nextId)] }) := by
  obtain ⟨hs, hne⟩ := filter_eq_some_iff.mp hn
  unfold addActor
  split
  · simp_all
  · simp_all
  · next other _ ho =>
    obtain rfl : other = name := some.inj (ho.symm.trans hs)
    split
    · rfl
    · cases e.value? other with
      | some id => rfl
      | none =>
        have hc : (cutEdits [.append (actorDraft (madeUpId p.nextId) other)]).2 := by
          have hk : isAllowedText "process:Actor" := by decide
          simp [cutEdits, Edit.cut, cut_draft_eq, actorDraft, Draft.texts, textsOfAll, DraftValue.text?,
            isAllowedText_madeUpId, ha, hk]
        have hid : (Planning.freshId).run p = (.ok (madeUpId p.nextId), { p with nextId := p.nextId + 1 }) := rfl
        exact (run_bind_of_ok hid).trans (run_bind_of_ok (run_edit hc _))

theorem run_addActors : ∀ {ls : List Place} {actors : Actors} {p : Plan} {names : List String},
    ls.filterMap (fun lane => name? lane.element.tag) = names → (∀ name ∈ names, isAllowedText name) →
    ∃ actors' plan', (ls.foldlM (addActor pool e) actors).run p = (.ok actors', plan') ∧ plan'.jobs = p.jobs
        ++ (newActors p.nextId (missing e actors names)).map (actorJob pool.path) ∧
      actors'.value? = idAfter? e actors p.nextId names
  | [], actors, p, _, rfl, _ =>
    ⟨actors, p, rfl, by simp [missing, newActors], funext fun name => by simp [idAfter?]⟩
  | lane :: ls, actors, p, _, rfl, h => by
    rw [foldlM_cons]
    cases hn : name? lane.element.tag with
    | none =>
      simp only [filterMap_cons, hn] at h ⊢
      rw [run_bind_of_ok (run_addActor_none hn p)]
      exact run_addActors rfl h
    | some name =>
      simp only [filterMap_cons, hn] at h ⊢
      obtain ⟨ha, hl⟩ := forall_mem_cons.mp h
      have hr := @run_addActor pool lane e actors name hn ha p
      cases hh : actors.has name with
      | true =>
        rw [if_pos hh] at hr
        rw [run_bind_of_ok hr, missing_cons_of_has (by rw [hh, Bool.or_true]), idAfter?_of_has hh]
        exact run_addActors rfl hl
      | false =>
        rw [if_neg (by simp [hh])] at hr
        cases hid : e.value? name with
        | some id =>
          have he : e.has name := by rw [← isSome_value?, hid]; rfl
          rw [hid] at hr
          rw [run_bind_of_ok hr, missing_cons_of_has (by rw [he, Bool.true_or]), idAfter?_existing hh hid,
            ← missing_put he id]
          exact run_addActors rfl hl
        | none =>
          have he : e.has name = false := by rw [← isSome_value?, hid]; rfl
          rw [hid] at hr
          rw [run_bind_of_ok hr, missing_cons (by rw [he, hh]; rfl) _, idAfter?_new hh hid]
          obtain ⟨actors', plan', hre, hj, hv⟩ := run_addActors rfl hl
          refine ⟨actors', plan', hre, ?_, hv⟩
          rw [hj, append_assoc]
          rfl

/-! ### Writing the actors -/

def isPool (tag : Tag) : Bool := isElementOf ["process:Pool"] tag

def isLane (tag : Tag) : Bool := isElementOf ["process:Lane"] tag

def firstPool? (d : Document) : Option Element := d.root.node.elements.find? fun e => isPool e.tag

/-- The actors of an element, of whatever kind. -/
def actorTags (e : Element) : List Tag := (e.findAll (.plain "actors")).map Element.tag

/-- The tag of a new actor. -/
structure IsNewActor (entry : String × String) (tag : Tag) : Prop where
  label : tag.name.label = .plain "actors"
  entries : tag.entries = [(kindLabel, "process:Actor"), (idLabel, entry.2), (.plain "name", entry.1)]

theorem settled_actor {x : String × String} {n : Node} (h : Settled (actorDraft x.2 x.1) n) :
    ∃ tag, n = .element tag [] ∧ IsNewActor x tag := by
  cases h with
  | element ht hc =>
    cases hc
    refine ⟨_, rfl, ht.label, ?_⟩
    have ha := ht.entries (by simp [kindLabel, idLabel, Label.plain])
    obtain ⟨_, _, hk, hb, he⟩ := forall₂_cons_left_iff.mp ha
    obtain ⟨_, _, hid, hl, rfl⟩ := forall₂_cons_left_iff.mp hb
    obtain ⟨_, _, hn, hni, rfl⟩ := forall₂_cons_left_iff.mp hl
    rw [he, isEntry_text hk, isEntry_text hid, isEntry_text hn, forall₂_nil_left_iff.mp hni]

theorem applyEdits_actors (o : Scope) (tag : Tag) : ∀ (xs : List (String × String)) (ns : List Node),
    Gives (applyEdits o tag ns (xs.map fun entry => .append (actorDraft entry.2 entry.1)))
      fun r => ∃ added, r = (tag, ns ++ added.map (Node.element · [])) ∧ Forall₂ IsNewActor xs added
  | [], ns => Gives.pure ⟨[], by simp, .nil⟩
  | entry :: xs, ns => by
    rw [map_cons, applyEdits, Edit.apply, bind_assoc]
    refine (settle_settled _ _).bind fun n hn => ?_
    obtain ⟨new, rfl, hne⟩ := settled_actor hn
    refine (applyEdits_actors o tag xs _).mono fun r hr => ?_
    obtain ⟨added, rfl, ha⟩ := hr
    exact ⟨new :: added, by simp, .cons hne ha⟩

/-- New actors stand behind everything else in an element. -/
def GetsActors (entries : List (String × String)) (e : Element) (node : Node) : Prop :=
  ∃ added, node = .element e.tag (e.content ++ added.map (Node.element · [])) ∧ Forall₂ IsNewActor entries added

theorem perform_actors (e : Element) (xs : List (String × String)) (o : Scope) :
    Gives (e.node.perform o (xs.map (actorJob []))) (GetsActors xs e) := by
  have how : ownEdits (xs.map (actorJob [])) = xs.map fun x => .append (actorDraft x.2 x.1) := by
    simp [ownEdits, actorJob, filter_map, Function.comp_def, flatMap_map, ← map_eq_flatMap]
  have hid : ∀ i, jobsAt i (xs.map (actorJob [])) = [] := fun i => by simp [jobsAt, actorJob]
  have ho : ∀ ed ∈ xs.map fun x => Edit.append (actorDraft x.2 x.1), ed.isOfTag = false := by
    intro ed he
    obtain ⟨x, -, rfl⟩ := mem_map.mp he
    rfl
  rw [Element.node, perform_element, how, filter_eq_nil_iff.mpr fun ed he => by simp [ho ed he],
    filter_eq_self.mpr fun ed he => by simp [ho ed he], applyEdits]
  simp only [pure_bind, performFrom_idle e.content 0 fun i _ => hid i]
  refine (applyEdits_actors o e.tag xs e.content).bind fun r hr => ?_
  obtain ⟨added, rfl, ha⟩ := hr
  exact Gives.pure ⟨added, rfl, ha⟩

/-- Actors are added to the first pool of a diagram, and nothing else changes. -/
structure Staffed (entries : List (String × String)) (d d' : Document) (added : List Tag) : Prop where
  new : Forall₂ IsNewActor entries added
  tags : ∃ front back, tagsOf d = front ++ back ∧ tagsOf d' = front ++ added ++ back
  pool : ∃ e e', firstPool? d = some e ∧ firstPool? d' = some e' ∧ actorTags e' = actorTags e ++ added

theorem is_actors_of_new {xs : List (String × String)} {added : List Tag} (h : Forall₂ IsNewActor xs added) :
    ∀ tag ∈ added, tag.is (.plain "actors") := by
  intro tag ht
  obtain ⟨x, -, hn⟩ := exists_of_mem_right h ht
  rw [Tag.is, hn.label]
  exact beq_self_eq_true _

theorem find?_firstPool {f back : List Element} {tag : Tag} {ns : List Node}
    (hf : ∀ b ∈ f, isPool b.tag = false) (ht : isPool tag) :
    (f ++ (Node.element tag ns).elements ++ back).find? (fun e => isPool e.tag) = some ⟨tag, ns⟩ := by
  rw [append_assoc, find?_append, find?_eq_none.mpr fun e he => by simp [hf e he], Option.none_or, elements_element,
    cons_append, find?_cons, ht]

theorem staffed_of_firstBecomes {xs : List (String × String)} {d d' : Document}
    (h : FirstBecomes isPool (GetsActors xs) d.root.node.elements d'.root.node.elements) :
    ∃ added, Staffed xs d d' added := by
  obtain ⟨f, front', e, _, back, ho, hn, ht, hf, he, added, rfl, ha⟩ := h
  have hf' : ∀ b ∈ front', isPool b.tag = false := by
    have hta : ∀ tag ∈ front'.map Element.tag, isPool tag = false := by simpa [ht] using hf
    simpa using hta
  have hb : (elementsBelow (added.map (Node.element · []))).map Element.tag = added := by
    clear hn ha
    induction added with
    | nil => rfl
    | cons tag added ih => simp [ih]
  refine ⟨added, ha, ⟨f.map Element.tag ++ e.node.elements.map Element.tag, back.map Element.tag, ?_, ?_⟩,
    e, ⟨e.tag, e.content ++ added.map (Node.element · [])⟩, ?_, ?_, ?_⟩
  · rw [tagsOf, ho]
    simp
  · rw [tagsOf, hn, Element.node]
    simp [elementsBelow_append, hb, ht]
  · rw [firstPool?, ho]
    exact find?_firstPool hf he
  · rw [firstPool?, hn]
    exact find?_firstPool hf' he
  · have ham : elementsAmong (added.map (Node.element · [])) = added.map (Element.mk · []) := by
      rw [elementsAmong, filterMap_map]
      exact filterMap_eq_map ▸ rfl
    have hac := is_actors_of_new ha
    rw [actorTags, Element.findAll, Element.children, elementsAmong_append, filter_append, map_append, ham]
    congr 1
    rw [filter_eq_self.mpr (by simpa using hac), map_map]
    exact map_id' _

/-! ### Linking the lanes -/

mutual

def mapTags (f : Tag → Tag) : Node → Node
  | .element tag content => .element (f tag) (mapTagsOfAll f content)
  | .text s => .text s
  | .comment s => .comment s
  | .instruction target data => .instruction target data

def mapTagsOfAll (f : Tag → Tag) : List Node → List Node
  | [] => []
  | node :: rest => mapTags f node :: mapTagsOfAll f rest

end

def mapElement (f : Tag → Tag) (e : Element) : Element := ⟨f e.tag, mapTagsOfAll f e.content⟩

mutual

theorem elements_mapTags (f : Tag → Tag) : ∀ n : Node, (mapTags f n).elements = n.elements.map (mapElement f)
  | .element tag ns => by
    rw [mapTags, elements_element, elementsBelow_mapTags f ns]
    rfl
  | .text _ | .comment _ | .instruction _ _ => by rw [mapTags, elements_leaf rfl, map_nil]

theorem elementsBelow_mapTags (f : Tag → Tag) : ∀ ns : List Node,
    elementsBelow (mapTagsOfAll f ns) = (elementsBelow ns).map (mapElement f)
  | [] => by simp [mapTagsOfAll]
  | n :: tl => by
    rw [mapTagsOfAll, elementsBelow_cons, elementsBelow_cons, map_append, elements_mapTags f n,
      elementsBelow_mapTags f tl]

end

theorem elementsAmong_mapTags (f : Tag → Tag) (ns : List Node) :
    elementsAmong (mapTagsOfAll f ns) = (elementsAmong ns).map (mapElement f) := by
  induction ns with
  | nil => simp [mapTagsOfAll, elementsAmong]
  | cons n tl ih =>
    rw [mapTagsOfAll, elementsAmong, filterMap_cons, ← elementsAmong, ih]
    cases n <;> rw [mapTags] <;> rfl

theorem mapTagsOfAll_eq {f : Tag → Tag} {content ns' : List Node}
    (h : Forall₂ (fun n n' => n' = mapTags f n) content ns') : ns' = mapTagsOfAll f content := by
  induction h with
  | nil => simp [mapTagsOfAll]
  | cons hn _ ih => rw [mapTagsOfAll, hn, ih]

def linkOf? (actors : Actors) (tag : Tag) : Option String :=
  if isLane tag then ((tag.get? "name").bind actors.value?).join else none

def linked (actors : Actors) (tag : Tag) : Tag := ((linkOf? actors tag).map (tag.set "actor")).getD tag

theorem lanePlaces_eq (d : Document) : lanePlaces d = d.root.places.filter fun p => isLane p.element.tag := by
  rw [lanePlaces, placesOf, filter_filter]
  congr 1
  funext p
  rw [isLane, isElementOf, Bool.and_comm]
  simp [beq_eq_decide_eq]

def linkRows (actors : Actors) (e : Element) : List (List Edit) :=
  ((linkOf? actors e.tag).map fun id => [Edit.set (.plain "actor") id]).toList

theorem planLinks_plans (actors : Actors) (d : Document) :
    Plans (planLinks actors d) (∀ p ∈ lanePlaces d, ∀ id, (p.element.tag.get? "name").bind actors.value? = some id →
      ∃ v, id = some v ∧ isAllowedText v) (jobsWith (linkRows actors) d.root.places) := by
  have hj : jobsWith (linkRows actors) d.root.places = (lanePlaces d).flatMap fun p =>
      ((((p.element.tag.get? "name").bind actors.value?).join).map fun id =>
        Job.mk p.path [.set (.plain "actor") id]).toList := by
    rw [lanePlaces_eq, jobsWith]
    induction d.root.places with
    | nil => rfl
    | cons p places ih =>
      rw [flatMap_cons, ih, filter_cons, linkRows, linkOf?]
      split
      · rw [flatMap_cons]
        cases ((p.element.tag.get? "name").bind actors.value?).join <;> rfl
      · rfl
  rw [hj]
  refine Plans.forM fun l _ => ?_
  cases (l.element.tag.get? "name").bind actors.value? with
  | none => exact (Plans.pure ()).congr (by simp) rfl
  | some id =>
    cases id with
    | none => exact (Plans.throw _ _).congr (by simp) rfl
    | some id =>
      refine (Plans.edit l _).congr ?_ rfl
      cases ha : isAllowedText id <;> simp [cutEdits, Edit.cut, ha]

theorem perform_linked (actors : Actors) (root : Element) :
    Gives (root.node.perform [] (jobsWith (linkRows actors) root.places)) (· = mapTags (linked actors) root.node) := by
  refine Node.Fits.perform (T := fun e _ tag => tag = linked actors e.tag)
    (R := fun n n' => n' = mapTags (linked actors) n) (fun n hl => ?_) (fun o e own ho => ?_)
    (fun o e own tag ns ho ht hc => ?_) root.node [] _ (fits_jobsWith _ root.node [])
  · cases n with
    | element => cases hl
    | text | comment | instruction => rw [mapTags]
  · rw [ho, linkRows, linked]
    cases linkOf? actors e.tag with
    | none => exact Gives.pure rfl
    | some id => exact Gives.pure rfl
  · have hn : own.filter (fun ed => !ed.isOfTag) = [] := by
      rw [ho, linkRows]
      cases linkOf? actors e.tag <;> rfl
    rw [hn, ht, mapTagsOfAll_eq hc]
    exact Gives.pure rfl

/-! ### Both steps -/

/-- Names and ids of the actors among some tags that have a name. -/
def namedActors (tags : List Tag) : Actors :=
  tags.filterMap fun tag => if isActor tag then (name? tag).map fun name => (name, tag.value? idLabel) else none

def laneNames (d : Document) : List String := ((tagsOf d).filter isLane).filterMap name?

/-- The actors of a pool can be told apart, and ids that are made up are new. -/
structure CanStaff (d : Document) (nextId : Nat) (pool : Element) : Prop where
  ids : ∀ actor ∈ namedActors (actorTags pool), actor.2.isSome = true
  names : ((namedActors (actorTags pool)).map Prod.fst).Nodup
  distinct : ((namedActors (actorTags pool)).map Prod.snd).Nodup
  fresh : ∀ n, nextId ≤ n → some (madeUpId n) ∉ (namedActors (actorTags pool)).map Prod.snd
  texts : ∀ tag ∈ (tagsOf d).filter isLane ++ actorTags pool, ∀ a ∈ tag.attributes, isAllowedText a.value = true

theorem mem_namedActors {tags : List Tag} {a : String × Option String} (h : a ∈ namedActors tags) :
    ∃ tag ∈ tags, isActor tag ∧ name? tag = some a.1 ∧ tag.value? idLabel = a.2 := by
  obtain ⟨tag, ht, ha⟩ := mem_filterMap.mp h
  split at ha
  · next hk =>
    obtain ⟨name, hn, rfl⟩ := map_eq_some_iff.mp ha
    exact ⟨tag, ht, hk, hn, rfl⟩
  · cases ha

theorem existingActors_eq {pool : Element} (h : ((namedActors (actorTags pool)).map Prod.fst).Nodup) :
    existingActors pool = namedActors (actorTags pool) := by
  have he : ((pool.findAll (.plain "actors")).filterMap fun a =>
      if kindOf a.tag == "process:Actor" then
        ((a.tag.get? "name").filter (· != "")).map fun name => (name, a.tag.value? idLabel)
      else none) = namedActors (actorTags pool) := by
    rw [namedActors, actorTags, filterMap_map]
    refine filterMap_congr fun a ha => ?_
    rw [Function.comp_apply, isActor, (mem_filter.mp ha).2]
    rfl
  rw [existingActors, he]
  exact putAll_eq_append (m := []) h

theorem laneNames_eq (d : Document) : (lanePlaces d).filterMap (fun l => name? l.element.tag) = laneNames d := by
  rw [lanePlaces_eq, laneNames, tagsOf, ← places_map_element d.root.node [] [], map_map, filter_map, filterMap_map]
  rfl

theorem pool?_eq (d : Document) : pool? d = d.root.places.find? fun p => isPool p.element.tag := by
  rw [pool?, placesOf]
  simp [isPool, isElementOf, Tag.is, beq_eq_decide_eq]

theorem firstPool?_eq (d : Document) : firstPool? d = (pool? d).map Place.element := by
  rw [firstPool?, ← places_map_element d.root.node [] [], find?_map, pool?_eq]
  rfl

theorem isAllowedText_of_value? {tag : Tag} (h : ∀ a ∈ tag.attributes, isAllowedText a.value) {l : Label}
    {v : String} (hv : tag.value? l = some v) : isAllowedText v := by
  obtain ⟨a, ha, rfl⟩ := map_eq_some_iff.mp hv
  exact h a (mem_of_find?_eq_some ha)

theorem CanStaff.allowed {d : Document} {nextId : Nat} {pool : Element} (h : CanStaff d nextId pool) :
    ∀ name ∈ laneNames d, isAllowedText name := by
  intro name hn
  obtain ⟨tag, ht, hn⟩ := mem_filterMap.mp hn
  exact isAllowedText_of_value? (h.texts tag (mem_append_left _ ht)) (filter_eq_some_iff.mp hn).1

theorem perform_pool {d : Document} {p : Place}
    (h : (d.root.places.find? fun p => isPool p.element.tag) = some p) (xs : List (String × String)) :
    Gives (d.root.node.perform [] (xs.map (actorJob p.path))) fun n =>
      FirstBecomes isPool (GetsActors xs) d.root.node.elements n.elements := by
  refine perform_first p.path h rfl (fun job hj => ?_) fun o => ?_
  · obtain ⟨x, -, rfl⟩ := mem_map.mp hj
    rfl
  · rw [map_map]
    exact perform_actors p.element xs o

theorem round_actors {b : Bench} {pool : Element} (hpo : firstPool? b.document = some pool)
    (h : CanStaff b.document b.nextId pool) : ∃ actors b' added, (Bench.round planActors).run b = (.ok actors, b') ∧
      Staffed (newActors b.nextId (missing (namedActors (actorTags pool)) [] (laneNames b.document)))
        b.document b'.document added ∧
      actors.value? = idAfter? (namedActors (actorTags pool)) [] b.nextId (laneNames b.document) := by
  rw [firstPool?_eq] at hpo
  obtain ⟨p, hp, rfl⟩ := map_eq_some_iff.mp hpo
  obtain ⟨actors, pl, hr, hj, hv⟩ :=
    @run_addActors p (namedActors (actorTags p.element)) _ [] { nextId := b.nextId } _ (laneNames_eq b.document)
      h.allowed
  have hpl : (planActors b.document).run { nextId := b.nextId } = (.ok actors, pl) := by
    rw [planActors, hp]
    dsimp only
    rw [existingActors_eq h.names]
    exact hr
  rw [pool?_eq] at hp
  have hpe := perform_pool hp
    (newActors b.nextId (missing (namedActors (actorTags p.element)) [] (laneNames b.document)))
  simp only [nil_append] at hj
  rw [← hj] at hpe
  obtain ⟨added, ha⟩ := staffed_of_firstBecomes (root_of_perform hpe pl.nextId)
  exact ⟨actors, _, added, run_round hpl, ha, hv⟩

theorem round_links {actors : Actors} (h : ∀ name id, actors.value? name = some id →
    ∃ v, id = some v ∧ isAllowedText v) (b : Bench) :
    ∃ b', (Bench.round (planLinks actors)).run b = (.ok (), b') ∧
      b'.document.root.node = mapTags (linked actors) b.document.root.node := by
  have hp := planLinks_plans actors b.document
  obtain ⟨u, b', hr⟩ := exists_round_ok hp fun l _ id hid => by
    obtain ⟨name, -, hn⟩ := Option.bind_eq_some_iff.mp hid
    exact h name id hn
  obtain ⟨js, nextId, rfl, hd⟩ := round_ok hp.yields hr
  refine ⟨b', hr, ?_⟩
  rw [hd]
  exact root_of_perform (perform_linked actors b.document.root) nextId

/-! ### Who is linked to whom -/

section

variable {xs : List (String × String)} {added : List Tag} {entry x : String × String} {tag : Tag}

theorem IsNewActor.isActor (h : IsNewActor entry tag) : Bonita.isActor tag := by
  have hk : tag.value? kindLabel = some "process:Actor" := by
    rw [value?_eq_find?, h.entries]
    rfl
  rw [Bonita.isActor, kindOf, hk, Tag.is, h.label]
  rfl

theorem IsNewActor.name? (h : IsNewActor entry tag) : tag.get? "name" = some entry.1 := by
  rw [Tag.get?, value?_eq_find?, h.entries]
  rfl

theorem IsNewActor.id? (h : IsNewActor entry tag) : tag.value? idLabel = some entry.2 := by
  rw [value?_eq_find?, h.entries]
  rfl

theorem names_new (h : Forall₂ IsNewActor xs added) : added.map (·.get? "name") = (xs.map Prod.fst).map some := by
  induction h with
  | nil => rfl
  | cons hn _ ih => rw [map_cons, hn.name?, ih, map_cons, map_cons]

theorem namedActors_new (h : Forall₂ IsNewActor xs added) (hna : ∀ x ∈ xs, x.1 ≠ "") :
    namedActors added = xs.map fun x => (x.1, some x.2) := by
  induction h with
  | nil => rfl
  | @cons x tag xs added hn _ ih =>
    obtain ⟨hnam, hr⟩ := forall_mem_cons.mp hna
    have hf : Bonita.name? tag = some x.1 := by
      rw [Bonita.name?, hn.name?, Option.filter_some, if_pos (by simpa using hnam)]
    rw [namedActors, filterMap_cons, if_pos hn.isActor, hf, ← namedActors, ih hr, hn.id?]
    rfl

end

/-- The actors of a pool together with the new ones. -/
def allActors (named : Actors) (first : Nat) (names : List String) : Actors :=
  named ++ (newActors first (missing named [] names)).mapValues some

theorem idAfter?_nil {named : Actors} {f : Nat} {names : List String} {name : String} :
    idAfter? named [] f names name = if name ∈ names then (allActors named f names).value? name else none := by
  rw [allActors, value?_append, value?_mapValues]
  rfl

theorem missing_nil (named : Actors) (names : List String) :
    missing named [] names = (names.filter fun name => !named.has name).eraseDups := by
  simp [missing, has]

theorem mem_missing {named : Actors} {names : List String} {name : String} :
    name ∈ missing named [] names ↔ name ∈ names ∧ named.has name = false := by
  rw [missing_nil, mem_eraseDups, mem_filter, not_eq_true']

/-- Names and ids of actors are different, XML allows the ids, and some names are among those of the actors. -/
structure IsStaff (lanes : List String) (all : Actors) : Prop where
  names : all.keys.Nodup
  ids : (all.map Prod.snd).Nodup
  allowed : ∀ actor ∈ all, ∃ id, actor.2 = some id ∧ isAllowedText id = true
  has : ∀ name ∈ lanes, all.has name = true

theorem names_newActors (f : Nat) (names : List String) : (newActors f names).map Prod.fst = names := by
  rw [newActors, map_map]
  exact zipIdx_map_fst ..

theorem keys_newActors (f : Nat) (names : List String) : ((newActors f names).mapValues some).map Prod.fst = names := by
  rw [mapValues, map_map]
  exact names_newActors f names

theorem ids_newActors (f : Nat) (names : List String) :
    ((newActors f names).mapValues some).map Prod.snd = (range' f names.length).map (some ∘ madeUpId) := by
  rw [mapValues, newActors, map_map, map_map, ← zipIdx_map_snd f names, map_map]
  rfl

theorem CanStaff.isStaff {d : Document} {nextId : Nat} {pool : Element} (h : CanStaff d nextId pool) :
    IsStaff (laneNames d) (allActors (namedActors (actorTags pool)) nextId (laneNames d)) where
  names := by
    rw [allActors, OrderedMap.keys, map_append, keys_newActors, nodup_append]
    refine ⟨h.names, nodup_eraseDups _, fun name hna b ho heq => ?_⟩
    have hne := (mem_missing.mp (heq ▸ ho)).2
    rw [has_iff.mpr hna] at hne
    cases hne
  ids := by
    rw [allActors, map_append, ids_newActors, nodup_append]
    refine ⟨h.distinct, ?_, fun id hid b ho heq => ?_⟩
    · exact (nodup_range' 1).map fun i j hij => madeUpId_injective (some.inj hij)
    · obtain ⟨n, hn, rfl⟩ := mem_map.mp ho
      rw [heq] at hid
      exact h.fresh n (mem_range'_1.mp hn).1 hid
  allowed := by
    intro a ha
    rcases mem_append.mp ha with hol | hne
    · obtain ⟨id, hid⟩ := isSome_iff_exists.mp (h.ids a hol)
      refine ⟨id, hid, ?_⟩
      obtain ⟨tag, ht, -, -, hv⟩ := mem_namedActors hol
      exact isAllowedText_of_value? (h.texts tag (mem_append_right _ ht)) (hv.trans hid)
    · have hid := mem_map_of_mem (f := Prod.snd) hne
      rw [ids_newActors] at hid
      obtain ⟨n, -, hn⟩ := mem_map.mp hid
      exact ⟨madeUpId n, hn.symm, isAllowedText_madeUpId n⟩
  has := by
    intro name hna
    rw [has_iff, allActors, OrderedMap.keys, map_append, keys_newActors, mem_append]
    cases hh : (namedActors (actorTags pool)).has name with
    | true => exact .inl (has_iff.mp hh)
    | false => exact .inr (mem_missing.mpr ⟨hna, hh⟩)

/-- Lanes with a name are linked to the actors of their names in the first pool, and different names to different
    actors. For every new name there is one new actor, in the order of the lanes; apart from that only links of lanes
    are written. -/
structure LanesLinked (d d' : Document) : Prop where
  linked : ∃ pool, firstPool? d' = some pool ∧ ∀ lane ∈ (tagsOf d').filter isLane, ∀ name, name? lane = some name →
    ∃ actor ∈ actorTags pool, isActor actor = true ∧ actor.get? "name" = some name ∧
      ∃ id, actor.value? idLabel = some id ∧ lane.get? "actor" = some id
  same : ∀ lane ∈ (tagsOf d').filter isLane, ∀ lane' ∈ (tagsOf d').filter isLane, ∀ name name',
    name? lane = some name → name? lane' = some name' → (lane.get? "actor" = lane'.get? "actor" ↔ name = name')
  added : ∃ pool pool' added front back link, firstPool? d = some pool ∧ firstPool? d' = some pool' ∧
    actorTags pool' = actorTags pool ++ added ∧ (∀ actor ∈ added, isActor actor = true) ∧
    added.map (·.get? "name")
      = (((laneNames d).filter fun name => !(namedActors (actorTags pool)).has name).eraseDups).map some ∧
    tagsOf d = front ++ back ∧ tagsOf d' = front.map link ++ added ++ back.map link ∧
    ∀ tag, link tag = tag ∨ isLane tag = true ∧ ∃ id, link tag = tag.set "actor" id

section

variable {actors : Actors} {tag : Tag}

theorem linked_cases (actors : Actors) (tag : Tag) :
    linked actors tag = tag ∨ isLane tag ∧ ∃ id, linked actors tag = tag.set "actor" id := by
  rw [linked, linkOf?]
  split
  · next hl =>
    cases ((tag.get? "name").bind actors.value?).join with
    | none => exact .inl rfl
    | some id => exact .inr ⟨hl, id, rfl⟩
  · exact .inl rfl

theorem label_linked : (linked actors tag).name = tag.name := by
  rcases linked_cases actors tag with heq | ⟨-, id, heq⟩ <;> rw [heq]
  rfl

theorem value?_linked {l : Label} (hl : .plain "actor" ≠ l) : (linked actors tag).value? l = tag.value? l := by
  rcases linked_cases actors tag with heq | ⟨-, id, heq⟩ <;> rw [heq]
  rw [value?_set, if_neg hl]

theorem isElementOf_linked (kinds : List String) : isElementOf kinds (linked actors tag) = isElementOf kinds tag := by
  rw [isElementOf, isElementOf, Tag.is, Tag.is, label_linked, kindOf, kindOf, value?_linked (by decide)]

theorem name?_linked : name? (linked actors tag) = name? tag := by
  rw [name?, name?, Tag.get?, Tag.get?, value?_linked (by decide)]

theorem isLane_actor (h : tag.is (.plain "actors")) : isLane tag = false := by
  rw [is_iff] at h
  rw [isLane, isElementOf, Tag.is, h]
  rfl

theorem linked_actor (h : tag.is (.plain "actors")) : linked actors tag = tag := by
  rw [linked, linkOf?, isLane_actor h]
  rfl

theorem actorTags_mapElement (e : Element) : actorTags (mapElement (linked actors) e) = actorTags e := by
  have hl : ∀ child : Element, (mapElement (linked actors) child).tag.is (.plain "actors")
      = child.tag.is (.plain "actors") := fun child => by rw [mapElement, Tag.is, Tag.is, label_linked]
  rw [actorTags, Element.findAll, Element.children, mapElement, elementsAmong_mapTags, filter_map, map_map]
  simp only [Function.comp_def, hl]
  exact map_congr_left fun child hc => linked_actor (mem_filter.mp hc).2

variable {d d' : Document}

theorem tagsOf_linked (h : d'.root.node = mapTags (linked actors) d.root.node) :
    tagsOf d' = (tagsOf d).map (linked actors) := by
  rw [tagsOf, tagsOf, h, elements_mapTags, map_map, map_map]
  rfl

theorem firstPool?_linked (h : d'.root.node = mapTags (linked actors) d.root.node) :
    firstPool? d' = (firstPool? d).map (mapElement (linked actors)) := by
  rw [firstPool?, firstPool?, h, elements_mapTags, find?_map]
  simp [Function.comp_def, mapElement, isPool, isElementOf_linked]

end

theorem Staffed.lanes {xs : List (String × String)} {d d' : Document} {added : List Tag}
    (h : Staffed xs d d' added) : (tagsOf d').filter isLane = (tagsOf d).filter isLane := by
  obtain ⟨f, back, ho, hne⟩ := h.tags
  have hn : added.filter isLane = [] :=
    filter_eq_nil_iff.mpr fun tag ht => by simp [isLane_actor (is_actors_of_new h.new tag ht)]
  rw [ho, hne, filter_append, filter_append, hn, append_nil, filter_append]

theorem exists_link {d d' : Document} {actors all : Actors} (hla : (tagsOf d').filter isLane
      = ((tagsOf d).filter isLane).map (linked actors)) (hs : IsStaff (laneNames d) all)
    (ha : ∀ name ∈ laneNames d, actors.value? name = all.value? name) {l : Tag}
    (hl : l ∈ (tagsOf d').filter isLane) {name : String} (hn : name? l = some name) :
    ∃ id, l.get? "actor" = some id ∧ (name, some id) ∈ all := by
  rw [hla] at hl
  obtain ⟨old, ho, rfl⟩ := mem_map.mp hl
  rw [name?_linked] at hn
  have hm : name ∈ laneNames d := mem_filterMap.mpr ⟨old, ho, hn⟩
  obtain ⟨f, hf⟩ := isSome_iff_exists.mp ((isSome_value? all name).trans (hs.has name hm))
  obtain ⟨id, rfl, -⟩ := hs.allowed (name, f) (mem_of_value? hf)
  have hli : linkOf? actors old = some id := by
    rw [linkOf?, (mem_filter.mp ho).2, (filter_eq_some_iff.mp hn).1, Option.bind_some, ha name hm, hf]
    rfl
  refine ⟨id, ?_, mem_of_value? hf⟩
  rw [linked, hli, Option.map_some, Option.getD_some, Tag.get?, value?_set, if_pos rfl]

theorem lanesLinked {d d₁ d₂ : Document} {nextId : Nat} {pool : Element} {actors : Actors} {added : List Tag}
    (hp : firstPool? d = some pool) (h : CanStaff d nextId pool)
    (hs : Staffed (newActors nextId (missing (namedActors (actorTags pool)) [] (laneNames d))) d d₁ added)
    (hac : actors.value? = idAfter? (namedActors (actorTags pool)) [] nextId (laneNames d))
    (hli : d₂.root.node = mapTags (linked actors) d₁.root.node) : LanesLinked d d₂ := by
  obtain ⟨e, e', he, he', hta⟩ := hs.pool
  obtain rfl : e = pool := some.inj (he.symm.trans hp)
  have hp₂ : firstPool? d₂ = some (mapElement (linked actors) e') := by rw [firstPool?_linked hli, he']; rfl
  have had : namedActors added
      = (newActors nextId (missing (namedActors (actorTags e)) [] (laneNames d))).mapValues some := by
    refine namedActors_new hs.new fun x hen hem => ?_
    have hn := mem_map_of_mem (f := Prod.fst) hen
    rw [names_newActors] at hn
    have hl := (mem_missing.mp hn).1
    obtain ⟨tag, -, ht⟩ := mem_filterMap.mp hl
    exact bne_iff_ne.mp (filter_eq_some_iff.mp ht).2 hem
  have hal : namedActors (actorTags (mapElement (linked actors) e'))
      = allActors (namedActors (actorTags e)) nextId (laneNames d) := by
    rw [actorTags_mapElement, hta, allActors, ← had]
    exact filterMap_append
  have hla : (tagsOf d₂).filter isLane = ((tagsOf d).filter isLane).map (linked actors) := by
    rw [tagsOf_linked hli, filter_map, ← hs.lanes]
    simp only [Function.comp_def, isLane, isElementOf_linked]
    rfl
  have hlin : ∀ l ∈ (tagsOf d₂).filter isLane, ∀ name, name? l = some name →
      ∃ id, l.get? "actor" = some id ∧ (name, some id) ∈ allActors (namedActors (actorTags e)) nextId (laneNames d) :=
    fun l hl name => exists_link hla h.isStaff (fun name hn => by rw [hac, idAfter?_nil, if_pos hn]) hl
  refine ⟨⟨_, hp₂, fun l hl name hn => ?_⟩, fun l hl lane' hlane' name name' hn hn' => ?_, ?_⟩
  · obtain ⟨id, hid, hm⟩ := hlin l hl name hn
    obtain ⟨a, ha, hk, hna, hv⟩ := mem_namedActors (hal ▸ hm)
    exact ⟨a, ha, hk, (filter_eq_some_iff.mp hna).1, id, hv, hid⟩
  · obtain ⟨id, hid, hm⟩ := hlin l hl name hn
    obtain ⟨id', hi', hm'⟩ := hlin lane' hlane' name' hn'
    rw [hid, hi', some.injEq]
    constructor
    · rintro rfl
      exact congrArg Prod.fst (inj_on_of_nodup_map h.isStaff.ids hm hm' rfl)
    · rintro rfl
      exact some.inj (congrArg Prod.snd (inj_on_of_nodup_map h.isStaff.names hm hm' rfl))
  · obtain ⟨fr, back, ho, hne⟩ := hs.tags
    refine ⟨e, _, added, fr, back, linked actors, hp, hp₂, ?_, ?_, ?_, ho, ?_, linked_cases actors⟩
    · rw [actorTags_mapElement, hta]
    · intro a ha
      obtain ⟨x, -, hne⟩ := exists_of_mem_right hs.new ha
      exact hne.isActor
    · rw [names_new hs.new, names_newActors, missing_nil]
    · rw [tagsOf_linked hli, hne, map_append, map_append, map_congr_left fun tag ht =>
        linked_actor (is_actors_of_new hs.new tag ht)]
      simp

/-- Without a pool the actors cannot be written. With one whose actors can be told apart both steps succeed, and every
    lane is linked to its own actor. -/
theorem lanes_linked_to_actors (content : Content) (desk : Desk) :
    (firstPool? desk.bench.document = none → ∃ failure, ((Step.run content .actors).run desk).1 = .error failure ∧
      failure = .missingPool ∧ failure.kind = .document) ∧
    ∀ pool, firstPool? desk.bench.document = some pool → CanStaff desk.bench.document desk.bench.nextId pool →
      ∃ desk', (do Step.run content .actors; Step.run content .links).run desk = (.ok (), desk') ∧
        LanesLinked desk.bench.document desk'.bench.document := by
  refine ⟨fun hnone => ⟨.missingPool, ?_, rfl, rfl⟩, fun pool hpool h => ?_⟩
  · have hplan : (planActors desk.bench.document).run { nextId := desk.bench.nextId }
        = (.error .missingPool, { nextId := desk.bench.nextId }) := by
      rw [firstPool?_eq, Option.map_eq_none_iff] at hnone
      rw [planActors, hnone]
      rfl
    rw [Step.run]
    refine run_bind_of_error ?_
    rw [run_onBench, run_round hplan]
  · obtain ⟨actors, b₁, added, hround, hstaffed, hactors⟩ := round_actors hpool h
    have hids : ∀ name id, actors.value? name = some id → ∃ value, id = some value ∧ isAllowedText value = true := by
      intro name id hid
      rw [hactors, idAfter?_nil] at hid
      split at hid
      · exact h.isStaff.allowed _ (mem_of_value? hid)
      · cases hid
    obtain ⟨b₂, hlinks, hlinked⟩ := round_links hids b₁
    refine ⟨{ desk with bench := b₂, actors := actors }, ?_, lanesLinked hpool h hstaffed hactors hlinked⟩
    have hfirst : (Step.run content .actors).run desk = (.ok (), { desk with bench := b₁, actors := actors }) := by
      have hbench : (onBench (Bench.round planActors)).run desk = (.ok actors, { desk with bench := b₁ }) := by
        rw [run_onBench, hround]
      rw [Step.run]
      exact run_bind_of_ok hbench
    rw [run_bind_of_ok hfirst, Step.run]
    change (onBench (Bench.round (planLinks actors))).run _ = _
    rw [run_onBench, hlinks]

/-- A diagram with an actor for one of three lanes; the other two have one name, and one stands inside of the other. -/
def officeDiagram : Document := (parseChars true (["<process:MainProcess xmlns:xmi=\"http://www.omg.org/XMI\"",
    " xmlns:process=\"http://www.bonitasoft.org/ns/bpm/process\">", "<elements xmi:type=\"process:Pool\" name=\"P\">",
    "<elements xmi:type=\"process:Lane\" name=\"Guest\"><elements xmi:type=\"process:Lane\" name=\"Guest\"/></elements>",
    "<actors xmi:type=\"process:Actor\" xmi:id=\"a\" name=\"Clerk\"/>",
    "<elements xmi:type=\"process:Lane\" name=\"Clerk\"/>", "</elements>",
    "</process:MainProcess>"].flatMap String.toList)).getD default

theorem lanes_linked_to_actors_office : ∃ pool, firstPool? officeDiagram = some pool ∧ CanStaff officeDiagram 1 pool ∧
    ∃ desk', (do Step.run { model := {} } .actors; Step.run { model := {} } .links).run
        { bench := { document := officeDiagram, nextId := 1 } } = (.ok (), desk') ∧
      LanesLinked officeDiagram desk'.bench.document := by
  have hnamed : (firstPool? officeDiagram).map (fun pool => namedActors (actorTags pool))
      = some [("Clerk", some "a")] := by decide +kernel
  have htexts : ((firstPool? officeDiagram).all fun pool => ((tagsOf officeDiagram).filter isLane ++ actorTags pool).all
      fun tag => tag.attributes.all fun a => isAllowedText a.value) = true := by decide +kernel
  obtain ⟨pool, hpool, hactors⟩ := map_eq_some_iff.mp hnamed
  rw [hpool, Option.all_some] at htexts
  have h : CanStaff officeDiagram 1 pool := by
    refine ⟨by simp [hactors], by simp [hactors], by simp [hactors], fun n _ hn => ?_,
      fun tag htag a => all_eq_true.mp (all_eq_true.mp htexts tag htag) a⟩
    rw [hactors, map_singleton, mem_singleton, some.injEq] at hn
    have hhead := congrArg (fun id : String => id.toList.head?) hn
    simp [madeUpId, idMark] at hhead
  refine ⟨pool, hpool, h, ?_⟩
  generalize officeDiagram = document at hpool h ⊢
  exact (lanes_linked_to_actors _ { bench := { document, nextId := 1 } }).2 pool hpool h

end ProcessForge.Bonita
