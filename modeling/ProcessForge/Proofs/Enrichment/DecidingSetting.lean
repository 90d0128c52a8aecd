import ProcessForge.Proofs.Enrichment.Frame
import ProcessForge.Proofs.Enrichment.LaneActors

/-! Which setting decides a node. Of the settings with the name of a node, in the first entry for its process, the last
    one that says anything about a group of fields decides the whole group. Vendor attributes are decided key by key, by
    the last value that is not null. -/

namespace ProcessForge.Enrichment

open List OrderedMap

variable {s : NodeSetting} {relevant : NodeSetting → Prop} {v : Option String × Option String}
  {accepts q : String → Bool}

/-! ### Deciding settings -/

/-- What is configured for a process: the first entry with its id, and nothing if there is none. -/
inductive IsSettingOf (config : Configuration) (id : String) : ProcessSetting → Prop
  | entry {e : ProcessEntry} : FirstOf (fun e : ProcessEntry => e.id = id) config.processes e →
      IsSettingOf config id e.setting
  | missing : (∀ e ∈ config.processes, e.id ≠ id) → IsSettingOf config id {}

/-- The last relevant setting with the name of a node decides what the node has. Without one it keeps what it had. -/
def IsDecided {σ : Type} (n : FlowNode) (settings : List NodeSetting) (relevant : NodeSetting → Prop)
    (value : NodeSetting → σ) (old new : σ) : Prop :=
  (∃ s, LastOf (fun s => n.name = some s.name ∧ relevant s) settings s ∧ new = value s) ∨
  ((∀ s ∈ settings, ¬ (n.name = some s.name ∧ relevant s)) ∧ new = old)

def IsGiven (s : Option String) : Prop := ∃ text, s = some text ∧ text ≠ ""

/-- A setting has a reference from which the key of a form follows. -/
def HasForm (s : NodeSetting) : Prop := ∃ ref key, s.formRef = some ref ∧ Reference.formKey? ref = some key

/-- A node with its files and its decision. Forms are for user tasks and decisions for business rule tasks; other
    nodes keep what they had. -/
structure IsBound (p : Process) (tasks : List NodeSetting) (n n' : FlowNode) : Prop where
  eq : n' = { n with
    formKey := n'.formKey, formVariable := n'.formVariable, emailFile := n'.emailFile
    emailTemplate := n'.emailTemplate, restFile := n'.restFile, decision := n'.decision
    resultVariable := n'.resultVariable }
  form : IsDecided n tasks (fun s => n.kind = .userTask ∧ HasForm s)
    (fun s => (s.formRef.bind Reference.formKey?, (p.writtenObject? n).bind DataObject.variableName))
    (n.formKey, n.formVariable) (n'.formKey, n'.formVariable)
  email : IsDecided n tasks (fun s => IsGiven s.emailJsonRef ∨ IsGiven s.emailFtlRef)
    (fun s => (s.emailJsonRef.map Reference.fileName, s.emailFtlRef.map Reference.fileName))
    (n.emailFile, n.emailTemplate) (n'.emailFile, n'.emailTemplate)
  call : IsDecided n tasks (fun s => IsGiven s.restCallRef) (fun s => s.restCallRef.map Reference.fileName)
    n.restFile n'.restFile
  decision : IsDecided n tasks (fun s => n.kind = .businessRuleTask ∧ (IsGiven s.dmnRef ∨ IsGiven s.dmnResultVariable))
    (fun s => (s.dmnRef, s.dmnResultVariable)) (n.decision, n.resultVariable) (n'.decision, n'.resultVariable)

theorem isSettingOf_setting? (c : Configuration) (id : String) : IsSettingOf c id ((c.setting? id).getD {}) := by
  rw [Configuration.setting?]
  cases hf : c.processes.find? fun e => e.id == id with
  | some e =>
    refine .entry (firstOf_iff_find?.mpr ?_)
    rw [← hf]
    simp [Bool.beq_eq_decide_eq]
  | none => exact .missing fun e he => by simpa using find?_eq_none.mp hf e he

theorem isFilled_iff {s : Option String} : isFilled s ↔ IsGiven s := by
  cases s <;> simp [isFilled, IsGiven]

theorem hasForm_iff : HasForm s ↔ (s.formRef.bind Reference.formKey?).isSome := by
  cases hf : s.formRef <;> simp [HasForm, hf, Option.isSome_iff_exists]

/-- Settings that write exactly what is relevant decide. -/
theorem isDecided_lastWritten {σ : Type} {value : NodeSetting → σ} {write : NodeSetting → Option σ}
    (hw : ∀ s v, write s = some v ↔ relevant s ∧ value s = v) (n : FlowNode) (ss : List NodeSetting)
    (old : σ) : IsDecided n ss relevant value old (lastWritten write (settingsFor n ss) old) := by
  have hf : lastWritten write (settingsFor n ss) old
      = lastWritten (fun s => if n.name == some s.name then write s else none) ss old := by
    rw [lastWritten, settingsFor, foldl_filter, lastWritten]
    refine congrArg (fun step => ss.foldl step old) (funext fun old => funext fun s => ?_)
    split <;> rfl
  have hso : ∀ s v, (if n.name == some s.name then write s else none) = some v ↔
      (n.name = some s.name ∧ relevant s) ∧ value s = v := by
    intro s v
    by_cases hna : n.name = some s.name <;> simp [hna, hw]
  rw [hf, lastWritten_eq]
  cases hl : ss.reverse.findSome? fun s => if n.name == some s.name then write s else none with
  | some v =>
    obtain ⟨s, hs, hv⟩ := lastOf_of_findSome? hl
    have hr : (fun s => (if n.name == some s.name then write s else none).isSome = true)
        = fun s => n.name = some s.name ∧ relevant s := by
      simp only [Option.isSome_iff_exists, hso, exists_eq_right']
    exact .inl ⟨s, hr ▸ hs, ((hso s v).mp hv).2.symm⟩
  | none =>
    refine .inr ⟨fun s hs hr => ?_, rfl⟩
    have hn := findSome?_eq_none_iff.mp hl s (mem_reverse.mpr hs)
    rw [(hso s _).mpr ⟨hr, rfl⟩] at hn
    cases hn

theorem isDecided_of_kind {σ : Type} {value : NodeSetting → σ} {write : NodeSetting → Option σ}
    (hw : ∀ s v, write s = some v ↔ relevant s ∧ value s = v) (k : NodeKind) (n : FlowNode)
    (ss : List NodeSetting) (old : σ) : IsDecided n ss (fun s => n.kind = k ∧ relevant s) value old
      (if n.kind == k then lastWritten write (settingsFor n ss) old else old) := by
  by_cases hk : n.kind = k
  · simpa [hk] using isDecided_lastWritten hw n ss old
  · rw [if_neg (by simpa using hk)]
    exact .inr ⟨fun s _ h => hk h.2.1, rfl⟩

theorem formOf_eq_some {p : Process} {n : FlowNode} : formOf p n s = some v ↔ HasForm s ∧
      (s.formRef.bind Reference.formKey?, (p.writtenObject? n).bind DataObject.variableName) = v := by
  rw [formOf, hasForm_iff]
  cases s.formRef.bind Reference.formKey? <;> simp

theorem emailOf_eq_some : emailOf s = some v ↔ (IsGiven s.emailJsonRef ∨ IsGiven s.emailFtlRef) ∧
      (s.emailJsonRef.map Reference.fileName, s.emailFtlRef.map Reference.fileName) = v := by
  simp [emailOf, isFilled_iff]

theorem callOf_eq_some {v : Option String} : callOf s = some v ↔
    IsGiven s.restCallRef ∧ s.restCallRef.map Reference.fileName = v := by
  simp [callOf, isFilled_iff]

theorem decisionOf_eq_some : decisionOf s = some v ↔
    (IsGiven s.dmnRef ∨ IsGiven s.dmnResultVariable) ∧ (s.dmnRef, s.dmnResultVariable) = v := by
  simp [decisionOf, isFilled_iff]

/-! ### Vendor attributes -/

/-- The vendor attributes that settings with the name of a node give, one after the other. -/
def givenAttributes (n : FlowNode) (settings : List NodeSetting) : List (String × Json) :=
  (settings.filter fun s => n.name == some s.name).flatMap NodeSetting.vendorAttributes

/-- The accepted keys with a value that is not null, one after the other. -/
def writtenKeys (accepts : String → Bool) (attributes : List (String × Json)) : List String :=
  attributes.filterMap fun (key, v) =>
    match v with
    | .null => none
    | _ => if accepts key then some key else none

/-- Attributes are merged into a map. An accepted key has the text of its last value that is not null. All other keys
    keep what they had. Keys of the map keep their places, and new ones follow in the order in which they appear
    first. -/
structure IsMerged (accepts : String → Bool) (attributes : List (String × Json)) (old new : OrderedMap String) : Prop
    where
  written : ∀ key v, accepts key = true → LastOf (fun a => a.1 = key ∧ a.2 ≠ .null) attributes (key, v) →
    new.value? key = some v.display
  kept : ∀ key, (accepts key = true → ∀ v, (key, v) ∈ attributes → v = .null) → new.value? key = old.value? key
  keys : new.keys = old.keys ++ ((writtenKeys accepts attributes).filter fun key => !old.keys.contains key).eraseDups

theorem mergedEntries_append (q : String → Bool) (as more : List (String × Json)) :
    mergedEntries q (as ++ more) = mergedEntries q as ++ mergedEntries q more :=
  filterMap_append

theorem mergedEntries_cons {key : String} {v : Json} (hk : accepts key) (hv : v ≠ .null) (rest : List (String × Json)) :
    mergedEntries accepts ((key, v) :: rest) = (key, v.display) :: mergedEntries accepts rest := by
  cases v with
  | null => exact absurd rfl hv
  | bool | int | float | str | arr | obj => simp [mergedEntries, hk]

theorem of_mem_mergedEntries {as : List (String × Json)} {x : String × String} (h : x ∈ mergedEntries accepts as) :
    accepts x.1 ∧ ∃ v, (x.1, v) ∈ as ∧ v ≠ .null := by
  obtain ⟨⟨key, v⟩, hm, he⟩ := mem_filterMap.mp h
  dsimp only at he
  split at he
  · cases he
  · next hv =>
    split at he
    · next hk =>
      cases he
      exact ⟨hk, v, hm, hv⟩
    · cases he

theorem keys_mergedEntries (q : String → Bool) (attributes : List (String × Json)) :
    (mergedEntries q attributes).map Prod.fst = writtenKeys q attributes := by
  rw [mergedEntries, map_filterMap]
  refine congrArg (fun f => attributes.filterMap f) (funext fun x => ?_)
  obtain ⟨key, v⟩ := x
  cases v with
  | null => rfl
  | bool | int | float | str | arr | obj => by_cases hk : q key <;> simp [hk]

theorem isMerged_putAll (q : String → Bool) (as : List (String × Json)) (old : OrderedMap String) :
    IsMerged q as old (old.putAll (mergedEntries q as)) := by
  refine ⟨fun key v hk hl => ?_, fun key hn => ?_, ?_⟩
  · obtain ⟨b, a, rfl, ⟨-, hv⟩, haf⟩ := hl
    -- nothing behind the last value is written to the key
    have hr : ((mergedEntries q a).reverse.find? fun x => x.1 == key) = none := by
      refine find?_eq_none.mpr fun x he heq => ?_
      obtain ⟨-, o, hm, ho⟩ := of_mem_mergedEntries (mem_reverse.mp he)
      exact haf _ hm ⟨beq_iff_eq.mp heq, ho⟩
    rw [value?_putAll, mergedEntries_append, mergedEntries_cons hk hv]
    simp [find?_append, hr]
  · have hr : ((mergedEntries q as).reverse.find? fun x => x.1 == key) = none := by
      refine find?_eq_none.mpr fun x he heq => ?_
      obtain ⟨ha, v, hm, hv⟩ := of_mem_mergedEntries (mem_reverse.mp he)
      rw [beq_iff_eq.mp heq] at ha hm
      exact hv (hn ha v hm)
    rw [value?_putAll, hr]
    rfl
  · rw [keys_putAll, keys_mergedEntries]

/-! ### Passes -/

variable (given g : Givens)

theorem tasks_eq (p : Process) : g.tasks p = ((g.config.setting? p.id).getD {}).tasks := by
  rw [Givens.tasks]
  cases g.config.setting? p.id <;> rfl

theorem nodes_eq (p : Process) : g.nodes p
    = ((g.config.setting? p.id).getD {}).tasks ++ ((g.config.setting? p.id).getD {}).events := by
  rw [Givens.nodes]
  cases g.config.setting? p.id <;> rfl

/-- The passes that bind files and decisions. -/
def Pass.bindings : List Pass := [.forms, .emails, .calls, .decisions]

/-- The passes that bind files and decisions on a node of a process. -/
def bindNode (p : Process) (id : String) (n : FlowNode) : FlowNode :=
  Pass.bindings.foldl (fun n pass => pass.onNode given p id n) n

theorem Pass.onProcess_of_mem_bindings {pa : Pass} (h : pa ∈ Pass.bindings) (p : Process) : pa.onProcess given p
      = { p with nodes := p.nodes.map fun x => (x.1, pa.onNode given p x.1 x.2) } := by
  cases pa with
  | globals | lanes | actors | vendor => exact absurd h (by decide)
  | forms | emails | calls | decisions => exact Pass.onProcess_of_nodes given (fun _ _ => rfl) (fun _ => rfl) p

theorem onProcess_bindings (p : Process) : onProcess g Pass.bindings p
    = { p with nodes := p.nodes.map fun x => (x.1, bindNode g p x.1 x.2) } := by
  rw [onProcess, Pass.bindings]
  simp only [foldl_cons, foldl_nil]
  rw [Pass.onProcess_of_mem_bindings g (by decide), Pass.onProcess_of_mem_bindings g (by decide),
    Pass.onProcess_of_mem_bindings g (by decide), Pass.onProcess_of_mem_bindings g (by decide)]
  simp only [map_map]
  rfl

theorem isBound_bindNode (p : Process) (id : String) (n : FlowNode) : IsBound p (g.tasks p) n (bindNode g p id n) where
  eq := rfl
  form := isDecided_of_kind (fun _ _ => formOf_eq_some) .userTask n _ _
  email := isDecided_lastWritten (fun _ _ => emailOf_eq_some) n _ _
  call := isDecided_lastWritten (fun _ _ => callOf_eq_some) n _ _
  decision := isDecided_of_kind (fun _ _ => decisionOf_eq_some) .businessRuleTask n _ _

theorem isMerged_onNode (p : Process) (id : String) (n : FlowNode) :
    IsMerged g.accepts (givenAttributes n (g.nodes p)) n.vendorAttributes
      (Pass.onNode g p .vendor id n).vendorAttributes := by
  have hv : (Pass.onNode g p .vendor id n).vendorAttributes
      = n.vendorAttributes.putAll (mergedEntries g.accepts (givenAttributes n (g.nodes p))) := by
    simp [Pass.onNode, Pass.value, Pass.put, Pass.get, foldl_mergeAttributes, mergedEntries, givenAttributes,
      settingsFor, filterMap_flatMap]
  rw [hv]
  exact isMerged_putAll ..

/-- After the passes that bind files and decisions, every node has what the last relevant setting says, group by group.
    After vendor attributes are merged, every accepted key of a node has its last value, of those that tasks and then
    events give. -/
theorem settings_decide_nodes (config : Configuration) (accepts : String → Bool) (m : Model) :
    Forall₂ (fun p p' => p' = { p with nodes := p'.nodes } ∧ ∃ setting, IsSettingOf config p.id setting ∧
        Forall₂ (fun entry entry' => entry'.1 = entry.1 ∧ IsBound p setting.tasks entry.2 entry'.2)
          p.nodes p'.nodes)
      m.processes (bindDecisions config (bindCalls config (bindEmails config (bindForms config m)))).processes ∧
    Forall₂ (fun p p' => p' = { p with laneSet := p'.laneSet, nodes := p'.nodes } ∧
        ∃ setting, IsSettingOf config p.id setting ∧
        Forall₂ (fun entry entry' =>
          entry' = (entry.1, { entry.2 with vendorAttributes := entry'.2.vendorAttributes }) ∧
          IsMerged accepts (givenAttributes entry.2 (setting.tasks ++ setting.events)) entry.2.vendorAttributes
            entry'.2.vendorAttributes) p.nodes p'.nodes)
      m.processes (mergeVendorAttributes accepts config m).processes := by
  let given : Givens := ⟨config, none, [], accepts⟩
  have hbindings : bindDecisions config (bindCalls config (bindEmails config (bindForms config m)))
      = m.mapProcesses (onProcess given Pass.bindings) :=
    runPasses_eq_mapProcesses given Pass.bindings m
  have hvendor : mergeVendorAttributes accepts config m = m.mapProcesses (Pass.onProcess given .vendor) :=
    Pass.apply_eq given .vendor m
  rw [hbindings, hvendor]
  simp only [Model.mapProcesses]
  rw [forall₂_map_right_iff, forall₂_map_right_iff, forall₂_same, forall₂_same]
  refine ⟨fun p _ => ?_, fun p _ => ?_⟩
  · rw [onProcess_bindings]
    refine ⟨rfl, _, isSettingOf_setting? config p.id, ?_⟩
    rw [forall₂_map_right_iff, forall₂_same, ← tasks_eq given p]
    exact fun entry _ => ⟨rfl, isBound_bindNode given p entry.1 entry.2⟩
  · refine ⟨?_, _, isSettingOf_setting? config p.id, ?_⟩
    · rw [Pass.onProcess, mapValues_onFlow given (fun _ => rfl)]
    · rw [Pass.onProcess, forall₂_map_right_iff, forall₂_same, ← nodes_eq given p]
      exact fun entry _ => ⟨rfl, isMerged_onNode given p entry.1 entry.2⟩

end ProcessForge.Enrichment
