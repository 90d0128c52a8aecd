import ProcessForge.Proofs.Bonita.Contracts
import ProcessForge.Proofs.Bonita.Plans

/-! Conditions of timers. Events of a diagram are joined with nodes of the model by name, and names may be shared.
    Main statement: a timer event gets one condition with the duration of the last node of its name, and all other
    elements stay as they are. -/

namespace ProcessForge.Bonita

open Xml List

/-- The key of its name and the duration of a node that has both. -/
def timerEntry? (n : FlowNode) : Option (String × String) :=
  match n.timer, n.name with
  | some timer, some name => if timer.isEmpty || name.isEmpty then none else some (nameKey (some name), timer)
  | _, _ => none

def lastDuration? (m : Model) (key : String) : Option String :=
  ((m.allNodes.filterMap timerEntry?).reverse.find? fun entry => entry.1 == key).map Prod.snd

/-- The duration that an event of the diagram is to have. -/
def eventDuration? (m : Model) (tag : Tag) : Option String :=
  if isTimer tag then lastDuration? m (nameKey (tag.get? "name")) else none

def eventMillis? (m : Model) (tag : Tag) : Option Nat :=
  (eventDuration? m tag).bind fun duration => (Duration.millisOf (some duration)).toOption

def conditionLabel : Label := .plain "condition"

def conditionPairs (millis : Nat) : List (String × Option String) := [
  ("name", some (Duration.clock millis)), ("content", some (toString millis ++ "L")), ("interpreter", some "GROOVY"),
  ("type", some "TYPE_READ_ONLY_SCRIPT"), ("returnType", some "java.lang.Long")]

/-- A node before and after the conditions of timers are written. Tags stay. The content of a timer event loses its
    conditions and gets a new one; other elements keep their content, but for timer events further down. -/
inductive Timed (m : Model) : Node → Node → Prop
  | leaf {node : Node} : node.element? = none → Timed m node node
  | event {tag new : Tag} {content inner content' : List Node} {millis : Nat} :
      eventMillis? m tag = some millis → Forall₂ (Timed m) content inner →
      content'.filter (Node.is conditionLabel) = [.element new []] →
      IsNewTag "condition" "expression:Expression" (conditionPairs millis) new →
      (childNodes content').filter (fun node => !node.is conditionLabel)
        = (childNodes inner).filter (fun node => !node.is conditionLabel) →
      Timed m (.element tag content) (.element tag content')
  | other {tag : Tag} {content inner : List Node} : eventMillis? m tag = none → Forall₂ (Timed m) content inner →
      Timed m (.element tag content) (.element tag inner)

/-! ### The plan -/

theorem value?_timerDurations (m : Model) (key : String) : (timerDurations m).value? key = lastDuration? m key :=
  (OrderedMap.value?_putAll key (m.allNodes.filterMap timerEntry?) []).trans (Option.or_none ..)

def timerEdits (millis : Nat) : List Edit := [.clear conditionLabel, .append (timerCondition millis)]

theorem planTimers_plans (m : Model) (d : Document) :
    Plans (planTimers m d) (∀ p ∈ d.root.places, ∀ duration, eventDuration? m p.element.tag = some duration →
      ∃ millis, Duration.millisOf (some duration) = .ok millis ∧ (cutEdits (timerEdits millis)).2)
      (jobsWith (fun e => ((eventMillis? m e.tag).map timerEdits).toList) d.root.places) := by
  refine Plans.forM fun p _ => ?_
  dsimp only
  rw [value?_timerDurations]
  simp only [eventMillis?, eventDuration?]
  cases lastDuration? m (nameKey (p.element.tag.get? "name")) with
  | none => exact (Plans.pure ()).congr (by simp) (by simp)
  | some duration =>
    dsimp only
    split
    · refine (Plans.bind_ofExcept fun millis => Plans.edit p (timerEdits millis)).congr (by simp) ?_
      rw [Option.bind_some]
      cases Duration.millisOf (some duration) <;> rfl
    · exact (Plans.pure ()).congr (by simp) (by simp)

/-! ### The round -/

theorem isOfTag_timerEdits (m : Model) (tag : Tag) :
    ∀ e ∈ ((eventMillis? m tag).map timerEdits).toList.flatten, e.isOfTag = false := by
  cases eventMillis? m tag with
  | none => simp
  | some millis => simp [timerEdits, Edit.isOfTag]

theorem filter_removeNodes (l : Label) (c : List Node) : (removeNodes (Node.is l) false c).filter (Node.is l) = [] := by
  refine filter_eq_nil_iff.mpr fun n hn hl => ?_
  have hc : n ∈ childNodes (removeNodes (Node.is l) false c) := mem_filter.mpr ⟨hn, by simp [isText_of_is hl]⟩
  rw [childNodes_removeNodes] at hc
  simp [hl] at hc

theorem timerEdits_written (o : Scope) (tag : Tag) (millis : Nat) (i : List Node) :
    Gives (applyEdits o tag i (timerEdits millis)) fun r =>
      ∃ new, r = (tag, removeNodes (Node.is conditionLabel) false i ++ [.element new []]) ∧
        IsNewTag "condition" "expression:Expression" (conditionPairs millis) new := by
  simp only [timerEdits, applyEdits, Edit.apply, pure_bind, bind_assoc]
  refine (settle_settled (timerCondition millis) (tag.layer :: o)).bind fun n hn => ?_
  obtain ⟨new, c, rfl, hne, hni⟩ := settled_piece hn (by simp)
  obtain rfl := forall₂_nil_left_iff.mp hni
  exact Gives.pure ⟨new, rfl, hne⟩

theorem perform_timed (m : Model) (o : Scope) (root : Element) :
    Gives (root.node.perform o (jobsWith (fun e => ((eventMillis? m e.tag).map timerEdits).toList) root.places))
      (Timed m root.node) := by
  refine Node.Fits.perform (T := fun e _ tag => tag = e.tag) (fun n => .leaf) (fun o e own ho => ?_)
    (fun o e own tag c ho ht hc => ?_) root.node o _ (fits_jobsWith _ root.node [])
  · subst ho
    rw [filter_eq_nil_iff.mpr fun ed he => by simp [isOfTag_timerEdits m e.tag ed he]]
    exact Gives.pure rfl
  · subst ho ht
    cases hm : eventMillis? m e.tag with
    | none =>
      exact Gives.pure (.other hm hc)
    | some millis =>
      refine (timerEdits_written o e.tag millis c).mono fun r hr => ?_
      obtain ⟨new, rfl, hn⟩ := hr
      have hl : (Node.element new []).is conditionLabel := is_element hn.label []
      refine .event hm hc ?_ hn ?_
      · rw [filter_append, filter_removeNodes, filter_cons_of_pos hl, filter_nil, nil_append]
      · rw [childNodes_append, childNodes_removeNodes]
        simp [childNodes, Node.isText, hl]

/-- If the conditions can be written, then every event that is to have a duration has one that can be measured, and it
    gets one condition, for the last node of its name. -/
theorem timers_of_last_nodes {content : Content} {desk desk' : Desk}
    (h : (Step.run content .timers).run desk = (.ok (), desk')) :
    (∀ e ∈ desk.root.node.elements, ∀ duration, eventDuration? content.model e.tag = some duration →
      ∃ millis, Duration.millisOf (some duration) = .ok millis) ∧
    Timed content.model desk.root.node desk'.root.node := by
  rcases hround : (Bench.round (planTimers content.model)).run desk.bench with ⟨result, bench⟩
  rw [Step.run, run_onBench, hround] at h
  cases h
  have hplans := planTimers_plans content.model desk.bench.document
  obtain ⟨jobs, nextId, rfl, hdocument⟩ := round_ok hplans.yields hround
  refine ⟨fun e he duration hduration => ?_, ?_⟩
  · rw [← places_map_element desk.root.node [] []] at he
    obtain ⟨place, hplace, rfl⟩ := mem_map.mp he
    obtain ⟨millis, hmillis, -⟩ := ok_of_round_ok hplans hround place hplace duration hduration
    exact ⟨millis, hmillis⟩
  · change Timed _ _ bench.document.root.node
    rw [hdocument]
    exact root_of_perform (perform_timed content.model [] desk.root) nextId

def alarmDesk : Desk :=
  { bench := {
      document := { root := ⟨{
        name := { space := none, stem := "elements" }
        attributes := [⟨{ space := some { short := some "xmi", uri := kindLabel.uri.getD "" }, stem := "type" },
            "process:StartTimerEvent"⟩,
          ⟨{ space := none, stem := "name" }, "Alarm"⟩] }, []⟩ }
      nextId := 0, notices := [] } }

/-- Two nodes of one name, with different durations. -/
def twinTimers : Content :=
  { model := { processes := [{ id := "p", nodes := [
      ("a", { id := "a", kind := .startEvent, name := some "Alarm", timer := some "PT1H" }),
      ("b", { id := "b", kind := .startEvent, name := some " alarm", timer := some "PT2H" })] }] } }

/-- The diagram with the condition of the event. -/
def alarmResult : Desk := ((Step.run twinTimers .timers).run alarmDesk).2

theorem eq_ok_of_isOk {r : Except Failure Unit × Desk} (h : r.1.isOk) : r = (.ok (), r.2) := by
  obtain ⟨_ | _, desk⟩ := r
  · cases h
  · rfl

theorem run_twinTimers : (Step.run twinTimers .timers).run alarmDesk = (.ok (), alarmResult) :=
  eq_ok_of_isOk (by decide +kernel)

theorem timers_of_last_nodes_alarm : (Step.run twinTimers .timers).run alarmDesk = (.ok (), alarmResult) ∧
    Timed twinTimers.model alarmDesk.root.node alarmResult.root.node :=
  ⟨run_twinTimers, (timers_of_last_nodes run_twinTimers).2⟩

/-- The second of two nodes of one name decides, not the first. -/
theorem second_timer_wins : (Step.run twinTimers .timers).run alarmDesk = (.ok (), alarmResult) ∧
    twinTimers.model.allNodes.filterMap timerEntry? = [("alarm", "PT1H"), ("alarm", "PT2H")] ∧
    (elementsAmong alarmResult.root.content).map (fun e => e.tag.get? "content") = [some "7200000L"] :=
  ⟨run_twinTimers, by decide +kernel, by decide +kernel⟩

end ProcessForge.Bonita
