import ProcessForge.Proofs.Bonita.Survival
import ProcessForge.Proofs.Duration.Length
import ProcessForge.Proofs.OrderedMap

/-! What the steps of a generation do. Each step stops for few reasons, finds elements by their label and kind, and its
    edits are of a few forms. All that is said about whole generations is derived from this: a condition on the root of
    the document holds in the end if it holds of the skeleton and is kept by every row of such edits. -/

namespace ProcessForge.Bonita

open Xml List OrderedMap

variable {p : Failure → Prop}

/-! ### What stops steps -/

theorem errorsOnly_deployedForms (h : p .unusableValue) (index : Json) : ErrorsOnly p (deployedForms index) := by
  unfold deployedForms
  split
  · exact .ok _
  · split
    · exact .ok _
    · exact .error h

theorem errorsOnly_callConnector? (h : p .unusableValue) (objects : OrderedMap BusinessObject)
    (descriptor : OrderedMap Json) (task : Option String) : ErrorsOnly p (callConnector? objects descriptor task) := by
  have hm : ∀ v, ErrorsOnly p (methodOf v) := by
    intro v
    unfold methodOf
    split
    · exact .ok _
    · exact .ok _
    · split
      · exact .ok _
      · exact .error h
  unfold callConnector?
  split
  · exact .ok _
  · split
    · exact .ok _
    · exact .bind (hm _) fun _ => .ok _

theorem errorsOnly_findTemplate? (h : p .unusableValue) (templates : OrderedMap String) : ∀ refs : List Json,
    ErrorsOnly p (findTemplate? templates refs)
  | [] => .ok _
  | ref :: tl => by
    have hr := errorsOnly_findTemplate? h templates tl
    unfold findTemplate?
    split
    · split
      · exact hr
      · split
        · exact .ok _
        · exact hr
    · split
      · exact hr
      · exact .error h

/-- A length that cannot be given is the fault of the text, or it has a part with too many digits, or it is beyond all
    numbers of 64 bits. -/
theorem millisOf_error {t : Option String} {x : Failure} (h : Duration.millisOf t = .error x) :
    x.isReported ∨ x = .hugeNumber ∨ x = .immeasurableDuration := by
  have hc : ErrorsOnly (fun f => f.isReported ∨ f = .hugeNumber ∨ f = .immeasurableDuration) (Duration.millisOf t) := by
    unfold Duration.millisOf
    split
    · exact .error (.inl rfl)
    · dsimp only
      split
      · exact .error (.inl rfl)
      · split
        · exact .error (.inl rfl)
        · split
          · exact .error (.inl rfl)
          · exact Duration.errorsOnly_toMillis (.inr (.inl rfl)) (.inr (.inr rfl)) _
  exact hc x h

/-- Some timer of a model is too long to be measured. -/
def HasEndlessTimer (m : Model) : Prop :=
  ∃ n ∈ m.allNodes, ∃ timer, n.timer = some timer ∧ Duration.millisOf (some timer) = .error .immeasurableDuration

variable {m : Model} {key : String} {d : Document} {place : Place} {kinds : List String} {α : Type}
    {desk desk' : Desk} {content : Content}

theorem exists_timer_of_mem {timer : String} (h : (timerDurations m).value? key = some timer) :
    ∃ n ∈ m.allNodes, n.timer = some timer := by
  have hm := mem_of_mem_ofList (mem_of_value? h)
  obtain ⟨n, hn, he⟩ := mem_filterMap.mp hm
  refine ⟨n, hn, ?_⟩
  split at he
  · next timer' name ht hna =>
    split at he
    · exact absurd he (by simp)
    · obtain ⟨-, rfl⟩ := Prod.mk.inj (Option.some.inj he)
      exact ht
  · exact absurd he (by simp)

/-- What stops the steps that are done for a model, actors apart. -/
structure Stops (p : Failure → Prop) (m : Model) : Prop where
  reported : ∀ failure, failure.isReported = true → p failure
  text : p .forbiddenText
  number : p .hugeNumber
  value : p .unusableValue
  duration : HasEndlessTimer m → p .immeasurableDuration

/-! ### Where steps write -/

theorem mem_placesOf {s : String} : place ∈ placesOf d s ↔
    place ∈ d.root.places ∧ place.element.tag.is (.plain s) := mem_filter

theorem elementsByName_spec {kinds : Option (List String)} (h : (elementsByName d kinds).value? key = some place) :
    place ∈ d.root.places ∧ place.element.tag.is (.plain "elements") ∧
    kinds.all (fun ks => ks.contains (kindOf place.element.tag)) := by
  have hg : ∀ (places : List Place) (f : OrderedMap Place), (∀ x ∈ f, x.2 ∈ placesOf d "elements" ∧
        kinds.all (fun ks => ks.contains (kindOf x.2.element.tag))) →
      (∀ place ∈ places, place ∈ placesOf d "elements") →
      ∀ x ∈ places.foldl (fun f place =>
        let key := nameKey (place.element.tag.get? "name")
        if key.isEmpty || !kinds.all (fun ks => ks.contains (kindOf place.element.tag)) then f
        else f.putNew key place) f,
      x.2 ∈ placesOf d "elements" ∧ kinds.all (fun ks => ks.contains (kindOf x.2.element.tag)) := by
    intro places
    induction places with
    | nil => exact fun f hf _ => hf
    | cons place places ih =>
      intro f hf hp
      rw [foldl_cons]
      refine ih _ ?_ fun b ho => hp b (mem_cons_of_mem _ ho)
      dsimp only
      split
      · exact hf
      · next hk =>
        rw [putNew]
        split
        · exact hf
        · intro x he
          rcases mem_append.mp he with he | he
          · exact hf x he
          · rw [mem_singleton.mp he]
            simp only [Bool.or_eq_true, not_or, Bool.not_eq_true, Bool.not_eq_false'] at hk
            exact ⟨hp place (mem_cons_self ..), hk.2⟩
  obtain ⟨hplace, hki⟩ := hg _ [] (forall_mem_nil _) (fun _ hplace => hplace) _ (mem_of_value? h)
  obtain ⟨hm, hl⟩ := mem_placesOf.mp hplace
  exact ⟨hm, hl, hki⟩

theorem elementsByName_isElementOf (h : (elementsByName d (some kinds)).value? key = some place) :
    place ∈ d.root.places ∧ isElementOf kinds place.element.tag := by
  obtain ⟨hplace, hl, hk⟩ := elementsByName_spec h
  rw [isElementOf, hl]
  exact ⟨hplace, hk⟩

theorem pool?_mem {pool : Place} (h : pool? d = some pool) : pool ∈ d.root.places :=
  (mem_placesOf.mp (mem_of_find?_eq_some h)).1

theorem mem_lanePlaces {l : Place} (h : l ∈ lanePlaces d) :
    l ∈ d.root.places ∧ isElementOf ["process:Lane"] l.element.tag := by
  obtain ⟨hplace, hk⟩ := mem_filter.mp h
  obtain ⟨hm, hl⟩ := mem_placesOf.mp hplace
  rw [isElementOf, hl, eq_of_beq hk]
  exact ⟨hm, rfl⟩

/-! ### What steps write -/

def sendTaskEdits : List Edit := [.set kindLabel "process:Activity", .drop "overrideActorsOfTheLane", .drop "priority"]

/-- What steps do at an element, for a model that may bring fragments of markup along. -/
inductive Writes (m : Model) : Element → Edit → Prop
  | actor (e : Element) (id name : String) : Writes m e (.append (actorDraft id name))
  | link {e : Element} (id : String) : isElementOf ["process:Lane"] e.tag = true → Writes m e (.set (.plain "actor") id)
  | initiator {e : Element} : isActor e.tag = true → Writes m e (.set (.plain "initiator") "true")
  | data (e : Element) (typeId name type : String) : Writes m e (.append (variableDraft typeId name type))
  | timer {e : Element} {edit : Edit} (millis : Nat) : isTimer e.tag = true →
      edit ∈ [Edit.clear (.plain "condition"), .append (timerCondition millis)] → Writes m e edit
  | flow {e : Element} {edit : Edit} (objects : OrderedMap BusinessObject) (expression : String) :
      isFlow e.tag = true → edit ∈ [Edit.ensure (piece "condition" "expression:Expression" [] []),
        .within (.plain "condition") (conditionEdits objects expression)] → Writes m e edit
  | contract {e : Element} {edit : Edit} (contract : Contract) (className typeId : String) :
      isElementOf userTaskKinds e.tag = true → edit ∈ contractEdits contract className typeId → Writes m e edit
  | replace {e : Element} {l : Label} : e.tag.is (.plain "elements") = true → l ∈ replacedLabels → Writes m e (.clear l)
  | form (e : Element) (id deployed : String) : Writes m e (.place (formMapping id deployed) [.plain "contract"])
  | call (e : Element) {objects : OrderedMap BusinessObject} {descriptor : OrderedMap Json} {task : Option String}
      {connector : Connector} : callConnector? objects descriptor task = .ok (some connector) →
      Writes m e (.place connector.draft anchors)
  | email (e : Element) (objects : OrderedMap BusinessObject) (descriptor : OrderedMap Json) (task : Option String)
      (server : MailServer) (message : String) :
      Writes m e (.place (emailConnector objects descriptor task server message).draft anchors)
  | fragment (e : Element) {n : FlowNode} {a : String × String} {content : List Node} {edit : Edit} :
      n ∈ m.allNodes → a ∈ n.vendorAttributes → Enrichment.isFor "bonita" a.1 = true →
      parseFragment? a.2 = some content → edit ∈ fragmentEdits content → Writes m e edit
  | decision (e : Element) (table : Decision.Table) (root field : String) (object : BusinessObject) :
      Writes m e (.place (decisionDraft table root field object) anchors)
  | sendTask {e : Element} {edit : Edit} : isElementOf ["process:SendTask"] e.tag = true → edit ∈ sendTaskEdits →
      Writes m e edit

theorem isElementOf_label {tag : Tag} (h : isElementOf kinds tag) : tag.is (.plain "elements") := by
  rw [isElementOf, Bool.and_eq_true] at h
  exact h.1

theorem graftable_subset (following : Bool) (content : List Node) : graftable following content ⊆ content := by
  induction content generalizing following with
  | nil => exact List.Subset.refl _
  | cons n rest ih =>
    have hk : ∀ next, n :: graftable next rest ⊆ n :: rest := fun next => cons_subset_cons n (ih next)
    have hg : ∀ next, graftable next rest ⊆ n :: rest := fun next =>
      List.Subset.trans (ih next) (subset_cons_self _ _)
    cases n with
    | text s =>
      rw [graftable]
      split
      · exact hk true
      · exact hg false
    | element tag content => exact hk true
    | comment | instruction => exact hg false

/-! ### Plans -/

section

variable {m : Model} (h : Stops p m) (d : Document)

include h

theorem planActors_writes : YieldsAt p d.root.places (Writes m) (planActors d) := by
  unfold planActors
  split
  · exact .throw (h.reported _ rfl)
  · next pool hp =>
    refine .foldlM (fun actors l => ?_) _ _
    unfold addActor
    split
    · exact .pure _
    · exact .pure _
    · split
      · exact .pure _
      · split
        · exact .pure _
        · refine .bind .freshId fun id => .bind (.edit h.text ?_) fun _ => .pure _
          exact ⟨pool, pool?_mem hp, rfl, forall_mem_singleton.mpr (.actor ..)⟩

theorem planLinks_writes {actors : Actors} (ha : ∀ name, (name, none) ∈ actors → p .missingActorId) :
    YieldsAt p d.root.places (Writes m) (planLinks actors d) := by
  refine .forM fun l hl => ?_
  obtain ⟨hm, hk⟩ := mem_lanePlaces hl
  split
  · exact .pure _
  · next hf =>
    obtain ⟨name, -, hn⟩ := Option.bind_eq_some_iff.mp hf
    exact .throw (ha name (mem_of_value? hn))
  · exact .edit h.text ⟨_, hm, rfl, forall_mem_singleton.mpr (.link _ hk)⟩

theorem planInitiator_writes : YieldsAt p d.root.places (Writes m) (planInitiator m d) := by
  unfold planInitiator
  dsimp only
  split
  · next place hplace =>
    obtain ⟨id, -, hf⟩ := Option.bind_eq_some_iff.mp hplace
    obtain ⟨hm, hl⟩ := mem_placesOf.mp (mem_of_find?_eq_some hf)
    have hk := find?_some hf
    rw [Bool.and_eq_true] at hk
    have ha : isActor place.element.tag := by rw [isActor, hl, hk.1]; rfl
    exact .edit h.text ⟨_, hm, rfl, forall_mem_singleton.mpr (.initiator ha)⟩
  · exact .pure _

theorem planData_writes : YieldsAt p d.root.places (Writes m) (planData m d) := by
  unfold planData
  dsimp only
  split
  · split
    · exact .note _
    · split
      · exact .throw h.value
      · next pool hp =>
        refine .forM fun x _ => ?_
        split
        · exact .pure _
        · exact .edit h.text ⟨_, pool?_mem hp, rfl, forall_mem_singleton.mpr (.data ..)⟩
  · exact .pure _

theorem planTimers_writes : YieldsAt p d.root.places (Writes m) (planTimers m d) := by
  refine .forM fun place hplace => ?_
  dsimp only
  split
  · exact .pure _
  · next timer hte =>
    split
    · next ht =>
      refine .bind_ofExcept (fun x hf => ?_) fun millis _ => .edit h.text ?_
      · obtain ⟨n, hn, hno⟩ := exists_timer_of_mem hte
        rcases millisOf_error hf with hk | rfl | rfl
        · exact h.reported x hk
        · exact h.number
        · exact h.duration ⟨n, hn, timer, hno, hf⟩
      · exact ⟨_, hplace, rfl, fun _ => .timer millis ht⟩
    · exact .pure _

theorem planFlows_writes : YieldsAt p d.root.places (Writes m) (planFlows m d) := by
  refine .forM fun place hplace => ?_
  obtain ⟨hm, hl⟩ := mem_placesOf.mp hplace
  dsimp only
  split
  · next hk =>
    have hf : isFlow place.element.tag := by rw [isFlow, hl, hk]; rfl
    split
    · exact .pure _
    · exact .edit h.text ⟨_, hm, rfl, fun _ => .flow _ _ hf⟩
  · exact .pure _

theorem planContracts_writes (classes : ClassModel) :
    YieldsAt p d.root.places (Writes m) (planContracts classes m d) := by
  unfold planContracts
  split
  · exact .pure _
  · refine .forM fun proc _ => .forM fun n _ => ?_
    split
    · next hplace _ =>
      obtain ⟨hm, hk⟩ := elementsByName_isElementOf hplace
      exact .edit h.text ⟨_, hm, rfl, fun _ => .contract _ _ _ hk⟩
    · exact .pure _

theorem planForms_writes (cfg : Configuration) (index : Json) :
    YieldsAt p d.root.places (Writes m) (planForms cfg index d) := by
  refine .bind_ofExcept (errorsOnly_deployedForms h.value index) fun fms _ => ?_
  split
  · exact .pure _
  · refine .forM fun task _ => ?_
    split
    · exact .pure _
    · split
      · exact .note _
      · split
        · exact .pure _
        · next hplace =>
          obtain ⟨hm, hk⟩ := elementsByName_isElementOf hplace
          refine .edit h.text ⟨_, hm, rfl, forall_mem_cons.mpr ⟨?_, forall_mem_singleton.mpr (.form ..)⟩⟩
          exact .replace (isElementOf_label hk) (by decide)

omit h in
theorem mem_serviceTasks {cfg : Configuration} {task : NodeSetting} {place : Place}
    (h : (task, place) ∈ serviceTasks cfg d) :
    place ∈ d.root.places ∧ isElementOf serviceTaskKinds place.element.tag = true := by
  obtain ⟨task', -, hf⟩ := mem_filterMap.mp h
  split at hf
  · obtain ⟨p', hplace, heq⟩ := Option.map_eq_some_iff.mp hf
    cases heq
    exact elementsByName_isElementOf hplace
  · cases hf

theorem readDescriptor_adds {J : Job → Prop} (fs : OrderedMap String) (file : Option String) :
    Adds p J (readDescriptor fs file) := by
  unfold readDescriptor
  split
  · exact .pure _
  · split
    · exact .pure _
    · split
      · exact .pure _
      · exact .throw h.number
      · exact .bind (.note _) fun _ => .pure _

section

variable (fs : ServiceFiles) (objects : OrderedMap BusinessObject) (task : NodeSetting) {places : List Place}
  {place : Place} (hplace : place ∈ places)

include hplace

theorem addCall_writes : YieldsAt p places (Writes m) (addCall fs objects task place) := by
  refine .bind (readDescriptor_adds h _ _) fun f => ?_
  split
  · exact .pure _
  · refine .bind_ofExcept (errorsOnly_callConnector? h.value _ _ _) fun connector hc => ?_
    split
    · exact .pure _
    · exact .edit h.text ⟨_, hplace, rfl, forall_mem_singleton.mpr (.call _ hc)⟩

theorem addEmail_writes (server : Option MailServer) :
    YieldsAt p places (Writes m) (addEmail fs objects server task place) := by
  unfold addEmail
  split
  · exact .pure _
  · refine .bind (readDescriptor_adds h _ _) fun f => ?_
    split
    · exact .pure _
    · unfold planEmail
      rw [bind_assoc]
      refine .bind_ofExcept (errorsOnly_findTemplate? h.value _ _) fun t _ => ?_
      split
      · rw [bind_assoc]
        refine .bind (.note _) fun _ => ?_
        rw [pure_bind]
        exact .edit h.text ⟨_, hplace, rfl, forall_mem_singleton.mpr (.email ..)⟩
      · rw [pure_bind]
        exact .edit h.text ⟨_, hplace, rfl, forall_mem_singleton.mpr (.email ..)⟩

end

theorem planConnectors_writes (cfg : Configuration) (fs : ServiceFiles) :
    YieldsAt p d.root.places (Writes m) (planConnectors cfg fs d) := by
  refine .bind (.forM fun x he => ?_) fun _ => .forM fun x he => ?_
  · obtain ⟨hm, hk⟩ := mem_serviceTasks d he
    exact .edit h.text ⟨_, hm, rfl, forall_mem_singleton.mpr (.replace (isElementOf_label hk) (by decide))⟩
  · obtain ⟨hm, -⟩ := mem_serviceTasks d he
    dsimp only at hm ⊢
    split
    · refine .bind (addCall_writes h fs _ _ hm) fun _ => ?_
      split
      · exact addEmail_writes h fs _ _ hm _
      · exact .pure _
    · split
      · exact addEmail_writes h fs _ _ hm _
      · exact .pure _

theorem planFragments_writes : YieldsAt p d.root.places (Writes m) (planFragments m d) := by
  refine .forM fun n hn => ?_
  split
  · exact .pure _
  · next place hplace =>
    obtain ⟨hm, -, -⟩ := elementsByName_spec hplace
    refine .forM fun a ha => ?_
    dsimp only
    split
    · next hf =>
      rw [Bool.and_eq_true] at hf
      split
      · exact .note _
      · next content hc => exact .edit h.text ⟨_, hm, rfl, fun _ => .fragment _ hn ha hf.1 hc⟩
    · exact .pure _

omit h in
theorem readDecision_adds {J : Job → Prop} (fs : OrderedMap String) (n : FlowNode) : Adds p J (readDecision fs n) := by
  unfold readDecision
  split
  · exact .pure _
  · dsimp only
    split
    · exact .pure _
    · split
      · exact .bind (.note _) fun _ => .pure _
      · exact .pure _

theorem addDecision_writes (objects : OrderedMap BusinessObject) (n : FlowNode) (t : Decision.Table) :
    YieldsAt p d.root.places (Writes m) (addDecision (elementsByName d none) objects n t) := by
  unfold addDecision
  dsimp only
  split
  · exact .pure _
  · next place draft hf =>
    simp only [Option.bind_eq_bind, Option.bind_eq_some_iff] at hf
    obtain ⟨pa, -, root, -, f, -, object, -, p', hplace, heq⟩ := hf
    cases heq
    obtain ⟨hm, hl, -⟩ := elementsByName_spec hplace
    refine .edit h.text ⟨_, hm, rfl, forall_mem_cons.mpr ⟨?_, forall_mem_singleton.mpr (.decision ..)⟩⟩
    exact .replace hl (by decide)

theorem planDecisions_writes (fs : OrderedMap String) : YieldsAt p d.root.places (Writes m) (planDecisions fs m d) := by
  refine .forM fun n _ => ?_
  split
  · refine .bind (readDecision_adds fs n) fun f => ?_
    cases f with
    | none => exact .pure _
    | some t => exact addDecision_writes h d _ _ _
  · exact .pure _

theorem planSendTasks_writes : YieldsAt p d.root.places (Writes m) (planSendTasks d) := by
  refine .forM fun place hplace => ?_
  obtain ⟨hm, hl⟩ := mem_placesOf.mp hplace
  split
  · next hk =>
    refine .edit h.text ⟨_, hm, rfl, fun _ => .sendTask ?_⟩
    rw [isElementOf, hl, eq_of_beq hk]
    rfl
  · exact .pure _

end

/-! ### Steps -/

abbrev Desk.root (desk : Desk) : Element := desk.bench.document.root

/-- A document becomes another one by jobs at its elements that steps may do there. -/
def Rewrites (m : Model) (d d' : Document) : Prop :=
  ∃ jobs nextId, (∀ job ∈ jobs, ∃ place ∈ d.root.places, place.path = job.path ∧
    ∀ edit ∈ job.edits, Writes m place.element edit) ∧ d' = (d.perform nextId jobs).1

theorem run_onBench (work : BenchWork α) (desk : Desk) :
    (onBench work).run desk = ((work.run desk.bench).1, { desk with bench := (work.run desk.bench).2 }) := rfl

theorem onBench_rewrites {pl : Document → Planning α} {a : α}
    (hp : ∀ d : Document, YieldsAt p d.root.places (Writes m) (pl d))
    (h : (onBench (Bench.round pl)).run desk = (.ok a, desk')) :
    Rewrites m desk.bench.document desk'.bench.document := by
  rcases hr : (Bench.round pl).run desk.bench with ⟨res, bench⟩
  rw [run_onBench, hr] at h
  cases h
  exact round_ok (hp _).yields hr

theorem step_plans (h : Stops p content.model) : ∀ step : Step, step ≠ .actors → step ≠ .links →
    ∃ pl, step.run content = onBench (Bench.round pl) ∧
      ∀ d : Document, YieldsAt p d.root.places (Writes content.model) (pl d)
  | .actors, ha, _ => absurd rfl ha
  | .links, _, hl => absurd rfl hl
  | .initiator, _, _ => ⟨_, rfl, planInitiator_writes h⟩
  | .data, _, _ => ⟨_, rfl, planData_writes h⟩
  | .timers, _, _ => ⟨_, rfl, planTimers_writes h⟩
  | .flows, _, _ => ⟨_, rfl, planFlows_writes h⟩
  | .contracts, _, _ => ⟨_, rfl, fun d => planContracts_writes h d _⟩
  | .forms, _, _ => ⟨_, rfl, fun d => planForms_writes h d _ _⟩
  | .connectors, _, _ => ⟨_, rfl, fun d => planConnectors_writes h d _ _⟩
  | .fragments, _, _ => ⟨_, rfl, planFragments_writes h⟩
  | .decisions, _, _ => ⟨_, rfl, fun d => planDecisions_writes h d _⟩
  | .sendTasks, _, _ => ⟨_, rfl, planSendTasks_writes h⟩

theorem step_rewrites {u : Unit} (step : Step) (h : (step.run content).run desk = (.ok u, desk')) :
    Rewrites content.model desk.bench.document desk'.bench.document := by
  have hs : Stops (fun _ => True) content.model := ⟨fun _ _ => trivial, trivial, trivial, trivial, fun _ => trivial⟩
  by_cases ha : step = .actors
  · subst ha
    obtain ⟨actors, desk₁, hr, hpu⟩ := run_bind_ok h
    have hre : Rewrites content.model desk.bench.document desk₁.bench.document :=
      onBench_rewrites (planActors_writes hs) hr
    cases hpu
    exact hre
  by_cases hl : step = .links
  · subst hl
    obtain ⟨_, desk₁, hg, hr⟩ := run_bind_ok h
    cases hg
    exact onBench_rewrites (fun d => planLinks_writes hs d fun _ _ => trivial) hr
  obtain ⟨pl, hru, hp⟩ := step_plans hs step ha hl
  rw [hru] at h
  exact onBench_rewrites hp h

section

variable {content : Content} {P : Element → Prop} (hstep : ∀ d d', Rewrites content.model d d' → P d.root → P d'.root)

include hstep

theorem steps_keep {u : Unit} : ∀ (steps : List Step) {desk desk' : Desk}, P desk.root →
    (steps.forM (Step.run content)).run desk = (.ok u, desk') → P desk'.root
  | [], desk, desk', hd, h => by
    cases h
    exact hd
  | step :: steps, desk, desk', hd, h => by
    obtain ⟨_, desk₁, hf, hr⟩ := run_bind_ok h
    exact steps_keep steps (hstep _ _ (step_rewrites step hf) hd) hr

/-- What holds of the root of the skeleton and is kept by every row of edits holds of the root in the end. -/
theorem generate_keeps {sk out : Document} {ws ws' : List Notice} (hst : P (Desk.ofSkeleton sk ws).root)
    (h : generate content sk ws = (.ok out, ws')) : P out.root := by
  rcases hs : (Step.all.forM (Step.run content)).run (Desk.ofSkeleton sk ws) with ⟨res, desk⟩
  have hr : generate content sk ws = (res.map fun _ => desk.bench.document, desk.bench.notices) := by
    rw [generate, hs]
  rw [hr] at h
  cases res with
  | error x => cases h
  | ok u =>
    cases h
    exact steps_keep hstep Step.all hst hs

end

end ProcessForge.Bonita
