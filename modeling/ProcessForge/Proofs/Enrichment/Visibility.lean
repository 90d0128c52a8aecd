import ProcessForge.Bonita.Step
import Mathlib.Data.List.Basic

/-! What of a configuration an engine sees. Vendor attributes for other engines are taken out of it. Main statements:
    enrichment for an engine and the steps that write a diagram do not tell the difference. -/

namespace ProcessForge

open Xml List

/-! ### Settings without some of their vendor attributes -/

variable (accepts : String → Bool)

/-- A lane setting with accepted attributes only. -/
def LaneSetting.keep (s : LaneSetting) : LaneSetting :=
  { s with vendorAttributes := s.vendorAttributes.filter fun a => accepts a.1 }

/-- A node setting with accepted attributes only. -/
def NodeSetting.keep (s : NodeSetting) : NodeSetting :=
  { s with vendorAttributes := s.vendorAttributes.filter fun a => accepts a.1 }

/-- A process setting with accepted attributes only. -/
def ProcessSetting.keep (s : ProcessSetting) : ProcessSetting where
  lanes := s.lanes.map (LaneSetting.keep accepts)
  tasks := s.tasks.map (NodeSetting.keep accepts)
  events := s.events.map (NodeSetting.keep accepts)

/-- A configuration with accepted attributes only. -/
def Configuration.keep (c : Configuration) : Configuration :=
  { c with processes := c.processes.map fun entry => { entry with setting := entry.setting.keep accepts } }

theorem Configuration.setting?_keep (c : Configuration) (id : String) :
    (c.keep accepts).setting? id = (c.setting? id).map (ProcessSetting.keep accepts) := by
  simp only [setting?, keep, find?_map, Option.map_map]
  rfl

theorem Configuration.tasks_keep (c : Configuration) :
    (c.keep accepts).tasks = c.tasks.map (NodeSetting.keep accepts) := by
  simp only [tasks, keep, flatMap_map, map_flatMap]
  rfl

/-! ### Enrichment -/

namespace Enrichment

theorem laneSetting?_keep (s : ProcessSetting) (l : Lane) :
    laneSetting? (s.keep accepts) l = (laneSetting? s l).map (LaneSetting.keep accepts) := by
  simp only [laneSetting?, ProcessSetting.keep, find?_map]
  rfl

variable {accepts}

theorem mapConfigured_keep {f : Process → ProcessSetting → Process}
    (h : ∀ p s, f p (s.keep accepts) = f p s) (c : Configuration) (m : Model) :
    mapConfigured f (c.keep accepts) m = mapConfigured f c m := by
  unfold mapConfigured
  congr 1
  funext p
  rw [Configuration.setting?_keep]
  cases c.setting? p.id with
  | none => rfl
  | some s => exact h p s

theorem updateNamed_keep {update : Process → NodeSetting → FlowNode → FlowNode}
    (h : ∀ p s n, update p (s.keep accepts) n = update p s n) (kinds : NodeKind → Bool)
    (ss : List NodeSetting) (p : Process) :
    updateNamed kinds update (ss.map (NodeSetting.keep accepts)) p = updateNamed kinds update ss p := by
  have hn : ∀ s : NodeSetting, (s.keep accepts).name = s.name := fun _ => rfl
  simp [updateNamed, foldl_map, hn, h]

theorem mergeAttributes_filter (old : OrderedMap String) (extra : OrderedMap Json) :
    mergeAttributes accepts old (extra.filter fun a => accepts a.1) = mergeAttributes accepts old extra := by
  induction extra generalizing old with
  | nil => rfl
  | cons x tl ih =>
    obtain ⟨key, v⟩ := x
    cases hk : accepts key with
    | true =>
      rw [filter_cons_of_pos (by simpa using hk)]
      exact ih _
    | false =>
      rw [filter_cons_of_neg (by simpa using hk), ih]
      simp only [mergeAttributes, foldl_cons, hk]
      cases v <;> rfl

theorem bindLanes_keep (c : Configuration) (org : Option Organization) (m : Model) :
    bindLanes (c.keep accepts) org m = bindLanes c org m := by
  refine mapConfigured_keep (fun p s => ?_) c m
  congr 1
  funext lane
  rw [laneSetting?_keep]
  cases laneSetting? s lane <;> rfl

theorem bindForms_keep (c : Configuration) (m : Model) : bindForms (c.keep accepts) m = bindForms c m :=
  mapConfigured_keep (fun p s => updateNamed_keep (fun _ _ _ => rfl) _ s.tasks p) c m

theorem bindEmails_keep (c : Configuration) (m : Model) : bindEmails (c.keep accepts) m = bindEmails c m :=
  mapConfigured_keep (fun p s => updateNamed_keep (fun _ _ _ => rfl) _ s.tasks p) c m

theorem bindCalls_keep (c : Configuration) (m : Model) : bindCalls (c.keep accepts) m = bindCalls c m :=
  mapConfigured_keep (fun p s => updateNamed_keep (fun _ _ _ => rfl) _ s.tasks p) c m

theorem bindDecisions_keep (c : Configuration) (m : Model) : bindDecisions (c.keep accepts) m = bindDecisions c m :=
  mapConfigured_keep (fun p s => updateNamed_keep (fun _ _ _ => rfl) _ s.tasks p) c m

theorem mergeVendorAttributes_keep (c : Configuration) (m : Model) :
    mergeVendorAttributes accepts (c.keep accepts) m = mergeVendorAttributes accepts c m := by
  refine mapConfigured_keep (fun p st => ?_) c m
  have hn : ∀ (_ : Process) (s : NodeSetting) (n : FlowNode),
      { n with vendorAttributes := mergeAttributes accepts n.vendorAttributes (s.keep accepts).vendorAttributes } =
        { n with vendorAttributes := mergeAttributes accepts n.vendorAttributes s.vendorAttributes } := by
    intro _ s n
    simp [NodeSetting.keep, mergeAttributes_filter]
  show updateNamed _ _ (st.events.map (NodeSetting.keep accepts))
    (updateNamed _ _ (st.tasks.map (NodeSetting.keep accepts)) _) = _
  rw [updateNamed_keep hn, updateNamed_keep hn]
  -- what is left to compare are the lanes
  congr 3
  funext lane
  rw [laneSetting?_keep]
  cases laneSetting? st lane with
  | none => rfl
  | some s => simp [LaneSetting.keep, mergeAttributes_filter]

theorem enrich_keep (engine : String) (c : Configuration) (org : Option Organization) (m : Model) :
    enrich engine (c.keep (isFor engine)) org m = enrich engine c org m := by
  have hg : (c.keep (isFor engine)).globals = c.globals := rfl
  simp [enrich, hg, bindLanes_keep, bindForms_keep, bindEmails_keep, mergeVendorAttributes_keep,
    bindCalls_keep, bindDecisions_keep]

end Enrichment

/-! ### Steps of the diagram -/

namespace Bonita

theorem planForms_keep (c : Configuration) : planForms (c.keep accepts) = planForms c := by
  funext index d
  simp only [planForms, Configuration.tasks_keep, forM_eq_forM, forM_map]
  rfl

theorem serviceTasks_keep (c : Configuration) (d : Document) : serviceTasks (c.keep accepts) d =
      (serviceTasks c d).map fun task => (task.1.keep accepts, task.2) := by
  simp only [serviceTasks, Configuration.tasks_keep, filterMap_map, map_filterMap]
  simp only [Function.comp_apply, apply_ite (Option.map _), Option.map_none, Option.map_map]
  rfl

theorem planConnectors_keep (c : Configuration) : planConnectors (c.keep accepts) = planConnectors c := by
  funext files d
  simp only [planConnectors, serviceTasks_keep, forM_eq_forM, forM_map]
  rfl

/-- No step sees vendor attributes in the configuration: they are written from the model. -/
theorem Step.run_keep (content : Content) (step : Step) :
    step.run { content with config := content.config.keep accepts } = step.run content := by
  cases step with
  | forms => simp [Step.run, planForms_keep]
  | connectors => simp [Step.run, planConnectors_keep]
  | _ => rfl

theorem generate_keep (content : Content) (skeleton : Document) :
    generate { content with config := content.config.keep accepts } skeleton = generate content skeleton := by
  have hs : Step.run { content with config := content.config.keep accepts } = Step.run content :=
    funext fun step => Step.run_keep accepts content step
  funext ws
  simp [generate, hs]

end Bonita

end ProcessForge
