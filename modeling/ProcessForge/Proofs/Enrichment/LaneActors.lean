import ProcessForge.Proofs.Enrichment.Independence
import ProcessForge.Proofs.Expression.Placeholders
import ProcessForge.Proofs.Text.Trim

/-! Actors of lanes and of the tasks in them. A lane takes its actor from the first setting with its name in the first
    entry for its process, and a task takes the actor of the last lane that lists it and has one. Main statement:
    after both passes every lane and every node has exactly this actor, whatever names, settings and references
    are repeated or lead nowhere. -/

namespace ProcessForge.Enrichment

open List Text

variable {s id : String} {org : Option Organization} {lane l : Lane}

/-! ### First and last items -/

section

variable {α : Type}

def FirstOf (p : α → Prop) (items : List α) (x : α) : Prop :=
  ∃ before after, items = before ++ x :: after ∧ p x ∧ ∀ y ∈ before, ¬ p y

def LastOf (p : α → Prop) (items : List α) (x : α) : Prop :=
  ∃ before after, items = before ++ x :: after ∧ p x ∧ ∀ y ∈ after, ¬ p y

theorem firstOf_iff_find? {p : α → Prop} [DecidablePred p] {is : List α} {x : α} :
    FirstOf p is x ↔ is.find? (fun y => decide (p y)) = some x := by
  rw [find?_eq_some_iff_append]
  simp only [FirstOf, decide_eq_true_eq, Bool.not_eq_true', decide_eq_false_iff_not]
  constructor
  · rintro ⟨b, a, hit, hx, hb⟩
    exact ⟨hx, b, a, hit, hb⟩
  · rintro ⟨hx, b, a, hit, hb⟩
    exact ⟨b, a, hit, hx, hb⟩

theorem lastOf_of_findSome? {β : Type} {write : α → Option β} {is : List α} {v : β}
    (h : is.reverse.findSome? write = some v) :
    ∃ x, LastOf (fun y => (write y).isSome) is x ∧ write x = some v := by
  obtain ⟨b, x, a, hit, hx, hb⟩ := findSome?_eq_some_iff.mp h
  refine ⟨x, ⟨a.reverse, b.reverse, ?_, by simp [hx], ?_⟩, hx⟩
  · rw [← reverse_reverse is, hit]
    simp
  · intro y hy
    simp [hb y (mem_reverse.mp hy)]

end

/-! ### References -/

/-- A reference to a member of the organization, and the name or id that it asks for. Blanks around the reference
    and around the name do not matter. -/
def IsReference (s wanted : String) : Prop := ∃ name : List Char, name ≠ [] ∧ '\x7d' ∉ name ∧
    trimChars s.toList = "$\x7bref:organization.".toList ++ (name ++ ['\x7d']) ∧
    wanted = String.ofList (trimChars name)

/-- The actor that a text stands for: the name, or the id for want of a name, of the first actor that a reference asks
    for, role by role. A text that is no reference, or one that leads nowhere, stands for itself. -/
inductive Resolves (organization : Option Organization) (s : String) : String → Prop
  | actor {o : Organization} {wanted : String} {a : Actor} : organization = some o → IsReference s wanted →
      FirstOf (fun a => wanted = a.name ∨ wanted = a.id) (o.roles.flatMap Role.actors) a →
      Resolves organization s (if a.name = "" then a.id else a.name)
  | itself : (∀ o wanted, organization = some o → IsReference s wanted →
      ∀ role ∈ o.roles, ∀ a ∈ role.actors, ¬ (wanted = a.name ∨ wanted = a.id)) →
      Resolves organization s s

theorem eq_of_bracedExactly? {cs b : List Char} (h : Expression.bracedExactly? cs = some b) :
    '\x7d' ∉ b ∧ cs = '$' :: '\x7b' :: (b ++ ['\x7d']) := by
  unfold Expression.bracedExactly? at h
  split at h
  · next inner hin =>
    obtain ⟨hb, tl, rfl⟩ := Expression.eq_of_bracedAt? hin
    split at h
    · next hl =>
      obtain rfl := Option.some.inj h
      have hr : tl = [] := by
        simp only [length_cons, length_append, beq_iff_eq] at hl
        exact eq_nil_of_length_eq_zero (by omega)
      exact ⟨hb, by rw [hr]⟩
    · cases h
  · cases h

theorem isReference_iff {wanted : String} : IsReference s wanted ↔
    ∃ name, Reference.target? "ref:organization." s = some name ∧ wanted = String.ofList (trimChars name) := by
  constructor
  · rintro ⟨name, hn, hbr, hs, rfl⟩
    refine ⟨name, ?_, rfl⟩
    have hbo : '\x7d' ∉ "ref:organization.".toList ++ name := by
      rw [mem_append, not_or]
      exact ⟨by decide, hbr⟩
    have hc : trimChars s.toList = '$' :: '\x7b' :: (("ref:organization.".toList ++ name) ++ '\x7d' :: []) := by
      rw [hs]
      rfl
    have hb : Expression.bracedExactly? (trimChars s.toList) = some ("ref:organization.".toList ++ name) := by
      rw [Expression.bracedExactly?, hc, Expression.bracedAt?_append hbo]
      simp
    simp only [Reference.target?, hb, dropPrefix?_append]
    obtain ⟨c, tl, rfl⟩ := exists_cons_of_ne_nil hn
    rfl
  · rintro ⟨name, ht, rfl⟩
    unfold Reference.target? at ht
    split at ht
    · next body hb =>
      obtain ⟨hbr, hc⟩ := eq_of_bracedExactly? hb
      split at ht
      · cases ht
      · next hn =>
        have hbo := eq_append_of_dropPrefix? ht
        refine ⟨name, ?_, ?_, ?_, rfl⟩
        · rintro rfl
          exact hn ht
        · exact fun hm => hbr (hbo ▸ mem_append_right _ hm)
        · rw [hc, hbo, append_assoc]
          rfl
    · cases ht

theorem resolveActor_of_firstOf {o : Organization} {wanted : String} {a : Actor} (hs : IsReference s wanted)
    (ha : FirstOf (fun a => wanted = a.name ∨ wanted = a.id) (o.roles.flatMap Role.actors) a) :
    resolveActor (some o) s = if a.name = "" then a.id else a.name := by
  obtain ⟨name, ht, rfl⟩ := isReference_iff.mp hs
  have hf : o.actors.find? (fun a => String.ofList (trimChars name) == a.name
      || String.ofList (trimChars name) == a.id) = some a := by
    rw [firstOf_iff_find?] at ha
    simpa [Organization.actors, Bool.beq_eq_decide_eq] using ha
  simp [resolveActor, ht, hf]

theorem resolveActor_of_unresolved
    (h : ∀ o wanted, org = some o → IsReference s wanted → ∀ role ∈ o.roles, ∀ a ∈ role.actors,
      ¬ (wanted = a.name ∨ wanted = a.id)) :
    resolveActor org s = s := by
  unfold resolveActor
  split
  · next o name ht =>
    have hn := h o _ rfl (isReference_iff.mpr ⟨name, ht, rfl⟩)
    have hf : o.actors.find? (fun a => String.ofList (trimChars name) == a.name
        || String.ofList (trimChars name) == a.id) = none := by
      rw [find?_eq_none]
      intro a ha
      obtain ⟨role, hr, ha⟩ := mem_flatMap.mp ha
      simpa using hn role hr a ha
    simp [hf]
  · rfl

theorem resolves_iff {r : String} : Resolves org s r ↔ r = resolveActor org s := by
  constructor
  · rintro (⟨rfl, hs, ha⟩ | h)
    · exact (resolveActor_of_firstOf hs ha).symm
    · exact (resolveActor_of_unresolved h).symm
  · rintro rfl
    by_cases hac : ∃ o wanted a, org = some o ∧ IsReference s wanted ∧
        a ∈ o.roles.flatMap Role.actors ∧ (wanted = a.name ∨ wanted = a.id)
    · obtain ⟨o, wanted, a, rfl, hs, ha, hw⟩ := hac
      have hso : ((o.roles.flatMap Role.actors).find? fun a => decide (wanted = a.name ∨ wanted = a.id)).isSome :=
        find?_isSome.mpr ⟨a, ha, by simpa using hw⟩
      obtain ⟨f, hf⟩ := Option.isSome_iff_exists.mp hso
      rw [← firstOf_iff_find?] at hf
      rw [resolveActor_of_firstOf hs hf]
      exact .actor rfl hs hf
    · have hn : ∀ o wanted, org = some o → IsReference s wanted →
          ∀ role ∈ o.roles, ∀ a ∈ role.actors, ¬ (wanted = a.name ∨ wanted = a.id) := by
        intro o wanted ho hs role hr a ha hw
        exact hac ⟨o, wanted, a, ho, hs, mem_flatMap.mpr ⟨role, hr, ha⟩, hw⟩
      rw [resolveActor_of_unresolved hn]
      exact .itself hn

/-! ### Lanes -/

/-- The assignee of a lane: that of the first setting with its name, in the first entry for its process. -/
def IsAssigned (config : Configuration) (id : String) (lane : Lane) (assignee : String) : Prop :=
  ∃ entry setting, FirstOf (fun e : ProcessEntry => e.id = id) config.processes entry ∧
    FirstOf (fun s : LaneSetting => some s.name = lane.name) entry.setting.lanes setting ∧
    setting.assignee = some assignee ∧ assignee ≠ ""

/-- The actor of a lane: whom its assignee stands for, and nobody if it has none. -/
def IsLaneActor (config : Configuration) (organization : Option Organization) (id : String) (lane : Lane)
    (actor : Option String) : Prop :=
  (∃ assignee name, IsAssigned config id lane assignee ∧ Resolves organization assignee name ∧ actor = some name) ∨
  ((∀ assignee, ¬ IsAssigned config id lane assignee) ∧ actor = none)

variable (given g : Givens)

theorem isAssigned_iff {assignee : String} : IsAssigned g.config id lane assignee ↔
      (g.lane? id lane).bind LaneSetting.assignee = some assignee ∧ assignee ≠ "" := by
  have hen : ∀ entry, FirstOf (fun e : ProcessEntry => e.id = id) g.config.processes entry ↔
      (g.config.processes.find? fun e => e.id == id) = some entry := by
    intro entry
    simp [firstOf_iff_find?, Bool.beq_eq_decide_eq]
  have hse : ∀ setting ls, FirstOf (fun s : LaneSetting => some s.name = lane.name) ls setting ↔
      (ls.find? fun s => some s.name == lane.name) = some setting := by
    intro setting ls
    simp [firstOf_iff_find?, Bool.beq_eq_decide_eq]
  simp only [IsAssigned, hen, hse, Givens.lane?, Configuration.setting?, laneSetting?,
    Option.bind_eq_some_iff, Option.map_eq_some_iff]
  constructor
  · rintro ⟨entry, setting, he, hs, ha, hn⟩
    exact ⟨⟨setting, ⟨entry.setting, ⟨entry, he, rfl⟩, hs⟩, ha⟩, hn⟩
  · rintro ⟨⟨setting, ⟨_, ⟨entry, he, rfl⟩, hs⟩, ha⟩, hn⟩
    exact ⟨entry, setting, he, hs, ha, hn⟩

theorem isLaneActor_laneActor (id : String) (l : Lane) :
    IsLaneActor g.config g.organization id l (g.laneActor (g.lane? id l) none) := by
  unfold Givens.laneActor
  split
  · next assignee ha =>
    by_cases he : assignee = ""
    · rw [if_pos (String.isEmpty_iff.mpr he)]
      refine Or.inr ⟨fun b ho => ?_, rfl⟩
      obtain ⟨ho, hne⟩ := (isAssigned_iff g).mp ho
      exact hne (Option.some.inj (ho.symm.trans ha) ▸ he)
    · rw [if_neg (by simpa using he)]
      exact Or.inl ⟨assignee, _, (isAssigned_iff g).mpr ⟨ha, he⟩, resolves_iff.mpr rfl, rfl⟩
  · next hn =>
    refine Or.inr ⟨fun b ho => ?_, rfl⟩
    have ha := ((isAssigned_iff g).mp ho).1
    rw [hn] at ha
    cases ha

/-! ### Tasks -/

/-- A lane has an actor for the node with an id: it lists the node, and its actor is not empty. -/
def Staffs (id : String) (lane : Lane) : Prop := id ∈ lane.nodeRefs ∧ ∃ actor, lane.actor = some actor ∧ actor ≠ ""

/-- The actor of a user task: that of the last lane that has one for it, and nobody if there is no such lane. -/
def IsTaskActor (lanes : List Lane) (id : String) (actor : Option String) : Prop :=
  (∃ lane, LastOf (Staffs id) lanes lane ∧ actor = lane.actor) ∨
  ((∀ lane ∈ lanes, ¬ Staffs id lane) ∧ actor = none)

theorem staffs_iff : Staffs id l ↔ (actorOf id l).isSome := by
  cases ha : l.actor <;> simp [Staffs, actorOf, isFilled, ha]

theorem actorOf_eq {a : Option String} (h : actorOf id lane = some a) : a = lane.actor := by
  unfold actorOf at h
  split at h
  · exact (Option.some.inj h).symm
  · cases h

theorem isTaskActor_lastWritten (ls : List Lane) (id : String) :
    IsTaskActor ls id (lastWritten (actorOf id) ls none) := by
  rw [lastWritten_eq]
  cases hla : ls.reverse.findSome? (actorOf id) with
  | some a =>
    obtain ⟨l, hl, ha⟩ := lastOf_of_findSome? hla
    have hs : Staffs id = fun l => (actorOf id l).isSome = true := funext fun _ => propext staffs_iff
    exact Or.inl ⟨l, hs ▸ hl, actorOf_eq ha⟩
  | none =>
    refine Or.inr ⟨fun l hl hs => ?_, rfl⟩
    have hn := findSome?_eq_none_iff.mp hla l (mem_reverse.mpr hl)
    rw [staffs_iff, hn] at hs
    cases hs

/-! ### Both passes -/

/-- Nobody has been bound to a lane or a node yet. -/
structure HasNoActors (m : Model) : Prop where
  lanes : ∀ p ∈ m.processes, ∀ lane ∈ p.lanes, lane.actor = none
  nodes : ∀ p ∈ m.processes, ∀ entry ∈ p.nodes, entry.2.actor = none

/-- A process with its actors: lanes have those that the configuration assigns, user tasks those of their lanes, and
    other nodes have none. Nodes are known by the ids under which the process has them. The rest of the process
    stays. -/
structure IsStaffed (config : Configuration) (organization : Option Organization) (p p' : Process) : Prop where
  eq : p' = { p with laneSet := p'.laneSet, nodes := p'.nodes }
  lanes : Forall₂ (fun lane lane' => lane' = { lane with actor := lane'.actor } ∧
    IsLaneActor config organization p.id lane lane'.actor) p.lanes p'.lanes
  nodes : Forall₂ (fun entry entry' => entry' = (entry.1, { entry.2 with actor := entry'.2.actor }) ∧
    (entry.2.kind = .userTask → IsTaskActor p'.lanes entry.1 entry'.2.actor) ∧
    (entry.2.kind ≠ .userTask → entry'.2.actor = none)) p.nodes p'.nodes

theorem isStaffed_onProcess {p : Process} (hl : ∀ l ∈ p.lanes, l.actor = none)
    (hn : ∀ x ∈ p.nodes, x.2.actor = none) : IsStaffed given.config given.organization p
      (Pass.onProcess given .actors (Pass.onProcess given .lanes p)) := by
  have hl' : (Pass.onProcess given .actors (Pass.onProcess given .lanes p)).lanes
      = p.lanes.map (Pass.onLane given p.id .lanes) := by
    rw [Pass.lanes_onProcess, Pass.lanes_onProcess, map_map]
    rfl
  refine ⟨?_, ?_, ?_⟩
  · rw [Pass.onProcess_onProcess]
    simp [Pass.onFlow, OrderedMap.mapValues]
  · rw [hl', forall₂_map_right_iff, forall₂_same]
    intro l hla
    refine ⟨rfl, ?_⟩
    have ha := isLaneActor_laneActor given p.id l
    rwa [← hl l hla] at ha
  · rw [hl', Pass.onProcess_onProcess, forall₂_map_right_iff, forall₂_same]
    intro x he
    refine ⟨rfl, fun hk => ?_, fun hk => ?_⟩
    · have ha := isTaskActor_lastWritten (p.lanes.map (Pass.onLane given p.id .lanes)) x.1
      rw [← hn x he] at ha
      simpa [Pass.onNode, Pass.value, Pass.get, Pass.put, hk, Pass.lanes_onProcess] using ha
    · simpa [Pass.onNode, Pass.value, Pass.get, Pass.put, hk] using hn x he

/-- After lanes are bound and their actors handed on, every process is staffed. Whom an assignee stands for is settled
    for every text, and it is what the binder makes of the text. -/
theorem lane_actors_reach_tasks (config : Configuration) (organization : Option Organization) {m : Model}
    (h : HasNoActors m) :
    (∀ s name, Resolves organization s name ↔ name = resolveActor organization s) ∧
    Forall₂ (IsStaffed config organization) m.processes
      (propagateActors (bindLanes config organization m)).processes := by
  have hpasses : propagateActors (bindLanes config organization m)
      = Pass.apply ⟨config, organization, [], fun _ => true⟩ .actors
        (Pass.apply ⟨config, organization, [], fun _ => true⟩ .lanes m) := rfl
  rw [hpasses, Pass.apply_eq, Pass.apply_eq]
  refine ⟨fun _ _ => resolves_iff, ?_⟩
  simp only [Model.mapProcesses, map_map]
  rw [forall₂_map_right_iff, forall₂_same]
  exact fun p hp => isStaffed_onProcess ⟨config, organization, [], fun _ => true⟩ (h.lanes p hp) (h.nodes p hp)

/-- A claims office: the review is listed in two lanes, one lane is repeated, and references go to an event and to a
    node that is not there. -/
def claimsModel : Model where
  processes := [{
    id := "claims"
    laneSet := some { lanes := [{ id := "l1", name := some "Clerk", nodeRefs := ["review", "start", "lost"] },
      { id := "l2", name := some "Manager", nodeRefs := ["review", "approve"] },
      { id := "l3", name := some "Clerk", nodeRefs := ["file"] },
      { id := "l4", name := some "Desk", nodeRefs := ["approve"] }] }
    nodes := [("start", { id := "start", kind := .startEvent }), ("review", { id := "review", kind := .userTask }),
      ("approve", { id := "approve", kind := .userTask }), ("file", { id := "file", kind := .userTask })] }]

/-- Two entries for the process and two settings for the clerk, of which the first ones count. -/
def claimsConfig : Configuration where
  processes := [
    { id := "claims", setting := { lanes := [
      { name := "Clerk", assignee := some " $\x7bref:organization. w7 \x7d" }, { name := "Desk", assignee := some "" },
      { name := "Clerk", assignee := some "nobody" }, { name := "Manager", assignee := some "helen" }] } },
    { id := "claims", setting := { lanes := [{ name := "Desk", assignee := some "second" }] } }]

/-- An actor without a name, and one with a name. -/
def claimsOffice : Organization where
  roles := [{ id := "r1", actors := [{ id := "w5" }] },
    { id := "r2", actors := [{ id := "w7", name := "walter" }, { id := "w7", name := "other" }] }]

theorem hasNoActors_claimsModel : HasNoActors claimsModel where
  lanes := by simp [claimsModel, Process.lanes]
  nodes := by simp [claimsModel, -Prod.forall]

theorem lane_actors_reach_tasks_claims : HasNoActors claimsModel ∧
    (∀ s name, Resolves (some claimsOffice) s name ↔ name = resolveActor (some claimsOffice) s) ∧
    Forall₂ (IsStaffed claimsConfig (some claimsOffice)) claimsModel.processes
      (propagateActors (bindLanes claimsConfig (some claimsOffice) claimsModel)).processes :=
  ⟨hasNoActors_claimsModel, lane_actors_reach_tasks claimsConfig (some claimsOffice) hasNoActors_claimsModel⟩

end ProcessForge.Enrichment
