import ProcessForge.Proofs.Camunda.Rounds
import ProcessForge.Proofs.Revising

/-! The rounds follow manuals, as long as the short form of vendor attributes stands for the namespace of
    extensions everywhere. The elements that they add are for extensions, parameters and conditions, and these
    get no edits themselves. -/

namespace ProcessForge.Camunda

open Xml Process List Text Enrichment

/-! ### The short form of vendor attributes -/

/-- The short form of vendor attributes stands for the namespace of extensions. -/
def IsVendorSpace (space : Namespace) : Prop := space.short = some "camunda" → space.uri = extensionUri

/-- The class of namespaces is one that writing attributes stays in. -/
theorem isSpaceClass_isVendorSpace : IsSpaceClass IsVendorSpace where
  xml h := absurd h (by decide)
  familiar {uri s} hs h := by
    unfold familiarShort? at hs
    split at hs
    · rw [← Option.some.inj hs] at h
      exact absurd (Option.some.inj h) (by decide)
    · cases hs
  coined n uri h := by
    have hc := congrArg String.toList (Option.some.inj h)
    simp at hc

/-- Documents in which the short form is declared, with this one meaning. -/
abbrev IsReady (d : Document) : Prop := d.Declares IsVendorSpace "camunda"

def quietLabels : List Label :=
  [bpmn "extensionElements", bpmn "conditionExpression", extension "inputOutput", extension "inputParameter"]

abbrev IsAdded (label : Label) : Prop := label ∈ quietLabels

/-! ### Extension attributes -/

/-- An edit that writes an extension attribute. -/
inductive SetsExtension : Edit → Prop
  | set {label : Label} (value : String) : label.uri = some extensionUri → SetsExtension (.set label value)

variable {edit e : Edit} {d : Document} {place p : Place} {I : Document → Prop} {α : Type} {stem s : String} {m : Model}

theorem SetsExtension.isOfTag (h : SetsExtension e) : e.isOfTag := by
  cases h
  rfl

theorem SetsExtension.quiet (h : SetsExtension edit) : QuietEdit IsAdded edit := by
  cases h with
  | set v hu =>
    refine .set v fun heq => ?_
    rw [heq] at hu
    cases hu

theorem setFilled_sets (s : String) (v : Option String) : ∀ edit ∈ setFilled s v, SetsExtension edit := by
  intro edit he
  unfold setFilled at he
  split at he
  · rw [mem_singleton.mp he]
    exact .set _ rfl
  · cases he

/-! ### Vendor attributes -/

/-- The name of a vendor attribute with its namespace in braces. -/
def vendorName (name : String) : String :=
  Label.braced ⟨some extensionUri, String.ofList (((splitFirst? ':' name.toList).map Prod.snd).getD [])⟩

/-- The edit for a vendor attribute, if its name can be written. -/
def vendorRow (a : String × String) : List Edit :=
  match Label.ofBraced? (vendorName a.1) with
  | some label => [.set label a.2]
  | none => []

def IsWritable (a : String × String) : Prop :=
  (Label.ofBraced? (vendorName a.1)).isSome = true ∧ isAllowedText a.2 = true

/-- The name that is written for a vendor attribute is in the namespace of the engine. -/
theorem ofBraced?_vendorName {name : String} {l : Label} (h : Label.ofBraced? (vendorName name) = some l) :
    l.uri = some extensionUri := by
  rw [vendorName] at h
  generalize String.ofList (((splitFirst? ':' name.toList).map Prod.snd).getD []) = s at h
  have hn : (Label.braced ⟨some extensionUri, s⟩).toList = '\x7b' :: (extensionUri.toList ++ '\x7d' :: s.toList) := by
    simp [Label.braced]
  unfold Label.ofBraced? at h
  rw [hn] at h
  obtain ⟨hs, -⟩ := Option.filter_eq_some_iff.mp h
  simp only [splitFirst?_append (show '\x7d' ∉ extensionUri.toList by decide)] at hs
  rw [← Option.some.inj hs]
  rfl

theorem vendorRow_sets (a : String × String) : ∀ edit ∈ vendorRow a, SetsExtension edit := by
  intro edit he
  unfold vendorRow at he
  split at he
  · next l hl =>
    rw [mem_singleton.mp he]
    exact .set _ (ofBraced?_vendorName hl)
  · cases he

theorem setBraced_plans (p : Place) (a : String × String) :
    Plans (setBraced p (vendorName a.1) a.2) (IsWritable a) [⟨p.path, vendorRow a⟩] := by
  unfold setBraced vendorRow IsWritable
  cases Label.ofBraced? (vendorName a.1) with
  | some l =>
    refine (Plans.edit p [.set l a.2]).congr ?_ rfl
    by_cases ha : isAllowedText a.2
    · simp [cutEdits, Edit.cut, ha]
    · simp [cutEdits, Edit.cut, ha]
  | none => exact (Plans.throw _ _).congr (by simp) rfl

/-- In a document that is ready, a vendor attribute is written as its row says. -/
theorem setPrefixed_plans (hd : IsReady d) (hp : p ∈ d.root.places) {a : String × String} (ha : isFor "camunda" a.1) :
    Plans (setPrefixed p a.1 a.2) (IsWritable a) [⟨p.path, vendorRow a⟩] := by
  obtain ⟨stem, hst⟩ := Option.isSome_iff_exists.mp ha
  have hc : a.1.toList = "camunda".toList ++ ':' :: stem := by
    rw [eq_append_of_dropPrefix? hst]
    rfl
  have hs : splitFirst? ':' a.1.toList = some ("camunda".toList, stem) := by
    rw [hc, splitFirst?_append (by decide)]
  obtain ⟨s, hsp, hv, hsh⟩ := hd.space? (by decide) hp
  have hn : Label.braced ⟨some s.uri, String.ofList stem⟩ = vendorName a.1 := by
    rw [vendorName, hs, hv hsh]
    rfl
  unfold setPrefixed
  rw [hs]
  simp only [String.ofList_toList, hsp, hn]
  exact ((setBraced_plans p a).bind fun _ => Plans.pure true).congr (iff_of_eq (and_true _)) rfl

/-! ### Elements with an entry in the model -/

section

variable {α : Type}

/-- Rows of edits for the elements with a name, by what the model has under their ids. -/
def rowsFor (stem : String) (find : String → Option α) (rows : α → List (List Edit)) (label : Label)
    (id : Option String) : List (List Edit) :=
  if label = bpmn stem then ((id.bind find).map rows).getD [] else []

/-- What the model has under the id of an element with a name meets a condition. -/
def OkFor (stem : String) (find : String → Option α) (ok : α → Prop) (label : Label) (id : Option String) : Prop :=
  label = bpmn stem → ∀ found ∈ id.bind find, ok found

variable {d : Document} {s : String} {find : String → Option α}

/-- A plan for the elements that the model knows follows the rows of what was found. -/
theorem matched_plans {f : Place × α → Planning Unit} {ok : α → Prop} {rows : α → List (List Edit)}
    (h : ∀ p ∈ d.root.places, ∀ fd, (∃ id, find id = some fd) →
      Plans (f (p, fd)) (ok fd) ((rows fd).map (Job.mk p.path))) :
    Plans ((matched d s find).forM f) (d.root.node.Meets (OkFor s find ok))
      (jobsWith (fun e => rowsFor s find rows e.tag.name.label (e.tag.get? "id")) d.root.places) := by
  have hpl : Plans ((matched d s find).forM f) (∀ fd ∈ matched d s find, ok fd.2)
      ((matched d s find).flatMap fun fd => (rows fd.2).map (Job.mk fd.1.path)) := by
    refine Plans.forM ?_
    rintro ⟨p, fd⟩ hm
    obtain ⟨hp, -, hf⟩ := mem_matched.mp hm
    obtain ⟨id, -, hid⟩ := Option.bind_eq_some_iff.mp hf
    exact h p hp fd ⟨id, hid⟩
  refine hpl.congr ⟨fun ha e he hl fd hf => ?_, ?_⟩ ?_
  · rw [← places_map_element d.root.node [] []] at he
    obtain ⟨p, hp, rfl⟩ := mem_map.mp he
    exact ha (p, fd) (mem_matched.mpr ⟨hp, hl, hf⟩)
  · rintro ha ⟨p, fd⟩ hm
    obtain ⟨hp, hl, hf⟩ := mem_matched.mp hm
    have he : p.element ∈ d.root.node.elements := places_map_element d.root.node [] [] ▸ mem_map.mpr ⟨p, hp, rfl⟩
    exact ha p.element he hl fd hf
  · rw [matched, placesOf]
    induction d.root.places with
    | nil => rfl
    | cons p places ih =>
      rw [jobsWith_cons, ← ih, rowsFor]
      by_cases hl : p.element.tag.name.label = bpmn s
      · rw [filter_cons, is_iff.mpr hl, if_pos rfl, filterMap_cons, if_pos hl]
        cases (p.element.tag.get? "id").bind find with
        | none => rfl
        | some fd => rfl
      · rw [filter_cons, if_neg (mt is_iff.mp hl), if_neg hl]
        rfl

def manualFor (stem : String) (find : String → Option α) (rows : α → List (List Edit)) : Manual :=
  fun label id => (rowsFor stem find rows label id).flatten

variable {rows : α → List (List Edit)}

/-- A manual has nothing for an element, or the rows of what was found for it. -/
theorem manualFor_cases (l : Label) (id : Option String) : manualFor s find rows l id = [] ∨
      l = bpmn s ∧ ∃ f, id.bind find = some f ∧ manualFor s find rows l id = (rows f).flatten := by
  rw [manualFor, rowsFor]
  split
  · next hl =>
    cases id.bind find with
    | none => exact Or.inl rfl
    | some f => exact Or.inr ⟨hl, f, rfl, rfl⟩
  · exact Or.inl rfl

theorem manualFor_forall {Q : Edit → Prop} (h : ∀ f, ∀ row ∈ rows f, ∀ edit ∈ row, Q edit) (l : Label)
    (id : Option String) : ∀ edit ∈ manualFor s find rows l id, l = bpmn s ∧ Q edit := by
  intro edit he
  rcases manualFor_cases l id with hn | ⟨hl, f, -, hr⟩
  · rw [hn] at he
    cases he
  · rw [hr] at he
    obtain ⟨row, hro, he⟩ := mem_flatten.mp he
    exact ⟨hl, h f row hro edit he⟩

theorem manualFor_of_ne {l : Label} (h : l ≠ bpmn s) (id : Option String) : manualFor s find rows l id = [] := by
  rw [manualFor, rowsFor, if_neg h, flatten_nil]

theorem manualFor_spares (hs : bpmn s ∉ quietLabels) (rows : α → List (List Edit)) :
    (manualFor s find rows).Spares IsAdded := by
  intro l id hl
  exact manualFor_of_ne (fun heq => hs (heq ▸ hl)) id

theorem okFor_added (hs : bpmn s ∉ quietLabels) (ok : α → Prop) (l : Label) (id : Option String)
    (hl : IsAdded l) : OkFor s find ok l id := fun heq => absurd (heq ▸ hl) hs

end

/-! ### Rounds with one manual -/

/-- A round that treats the root like all other elements. -/
def roundOf (plan : Document → Planning Unit) (manual : Manual) (ok : Label → Option String → Prop) : Round :=
  ⟨plan, manual, manual, ok⟩

/-- A round is sound if its plan does what its manual says. -/
theorem roundOf_isSound {p : Document → Planning Unit} {mn : Manual}
    {ok : Label → Option String → Prop} (hq : mn.IsQuiet IsAdded) (hs : mn.Spares IsAdded)
    (ho : ∀ l id, IsAdded l → ok l id) (hp : ∀ d, I d → ∃ js, Plans (p d) (d.root.node.Meets ok) js ∧
      d.root.node.Fits (fun e own => own = mn.edits e.tag) js) : (roundOf p mn ok).IsSound IsAdded I := by
  refine ⟨hq, hq, hs, ho, fun d hd => ?_⟩
  obtain ⟨js, hj, hf⟩ := hp d hd
  exact ⟨js, hj, hf.1, hf.2⟩

/-- A round over the elements with an entry in the model. -/
def matchedRound {α : Type} (stem : String) (find : String → Option α) (f : Place × α → Planning Unit)
    (rows : α → List (List Edit)) (ok : α → Prop) : Round :=
  roundOf (fun d => (matched d stem find).forM f) (manualFor stem find rows) (OkFor stem find ok)

/-- A round for matched elements is sound if its rows are quiet and its plan follows them. -/
theorem matchedRound_isSound {find : String → Option α}
    {f : Place × α → Planning Unit} {rows : α → List (List Edit)} {ok : α → Prop} (hs : bpmn s ∉ quietLabels)
    (hr : ∀ fd, ∀ row ∈ rows fd, ∀ e ∈ row, QuietEdit IsAdded e)
    (h : ∀ d, I d → ∀ p ∈ d.root.places, ∀ fd, (∃ id, find id = some fd) →
      Plans (f (p, fd)) (ok fd) ((rows fd).map (Job.mk p.path))) :
    (matchedRound s find f rows ok).IsSound IsAdded I := by
  refine roundOf_isSound (fun l id e he => (manualFor_forall hr l id e he).2)
    (manualFor_spares hs rows) (okFor_added hs ok) fun d hd => ?_
  exact ⟨_, matched_plans (h d hd), fits_jobsWith _ d.root.node []⟩

/-- A round writes extension attributes only, to elements that carry them. -/
def WritesExtensions (round : Round) : Prop :=
  round.top = round.below ∧
    ∀ label id, ∀ edit ∈ round.below label id, carriesExtensions label = true ∧ SetsExtension edit

theorem matchedRound_writes {find : String → Option α} {f : Place × α → Planning Unit}
    {rows : α → List (List Edit)} {ok : α → Prop} (hs : carriesExtensions (bpmn s))
    (hr : ∀ fd, ∀ row ∈ rows fd, ∀ e ∈ row, SetsExtension e) :
    WritesExtensions (matchedRound s find f rows ok) := by
  refine ⟨rfl, fun l id e he => ?_⟩
  obtain ⟨hl, hse⟩ := manualFor_forall hr l id e he
  exact ⟨hl ▸ hs, hse⟩

/-! ### Lanes and nodes -/

/-- The edits for a lane: its vendor attributes and then its actor. -/
def laneRows (lane : Lane) : List (List Edit) :=
  lane.vendorAttributes.map vendorRow ++ [setFilled "assignee" lane.actor]

def IsLaneOk (lane : Lane) : Prop :=
  (∀ a ∈ lane.vendorAttributes, IsWritable a) ∧ (cutEdits (setFilled "assignee" lane.actor)).2 = true

def laneRound (m : Model) : Round :=
  matchedRound "lane" m.lane? (fun (place, lane) => do
    lane.vendorAttributes.forM fun (name, value) => discard (setPrefixed place name value)
    Planning.edit place (setFilled "assignee" lane.actor)) laneRows IsLaneOk

theorem laneRows_set (l : Lane) : ∀ row ∈ laneRows l, ∀ edit ∈ row, SetsExtension edit := by
  intro row hr
  rcases mem_append.mp hr with hr | hr
  · obtain ⟨a, -, rfl⟩ := mem_map.mp hr
    exact vendorRow_sets a
  · rw [mem_singleton.mp hr]
    exact setFilled_sets _ _

theorem laneRound_writes (m : Model) : WritesExtensions (laneRound m) := matchedRound_writes (by decide) laneRows_set

/-- Lanes get what their rows say, as long as all their vendor attributes are for the engine. -/
theorem laneRound_isSound (hm : LanesHave (HasAccepted (isFor "camunda")) m) :
    (laneRound m).IsSound IsAdded IsReady := by
  refine matchedRound_isSound (by decide) (fun l row hr e he => (laneRows_set l row hr e he).quiet) ?_
  rintro d hd place hpl l ⟨id, hl⟩
  obtain ⟨p, hp, hme⟩ := mem_flatMap.mp (mem_of_find?_eq_some hl)
  have hv : Plans (l.vendorAttributes.forM fun (name, v) => discard (setPrefixed place name v))
      (∀ a ∈ l.vendorAttributes, IsWritable a)
      (l.vendorAttributes.flatMap fun a => [⟨place.path, vendorRow a⟩]) :=
    Plans.forM fun a ha => (setPrefixed_plans hd hpl (hm p hp l hme a ha)).discard
  refine (hv.bind fun _ => Plans.edit place _).congr Iff.rfl ?_
  rw [laneRows, map_append, map_map, map_eq_flatMap]
  rfl

/-- The edits of all rows can be carried out. -/
def AreWhole (rows : List (List Edit)) : Prop := ∀ row ∈ rows, (cutEdits row).2 = true

theorem editIf_plans (c : Prop) [Decidable c] (p : Place) (es : List Edit) :
    Plans (if c then Planning.edit p es else pure ()) (AreWhole (if c then [es] else []))
      ((if c then [es] else []).map (Job.mk p.path)) := by
  split
  · exact (Plans.edit p es).congr (by simp [AreWhole]) rfl
  · exact (Plans.pure ()).congr (by simp [AreWhole]) rfl

/-- The edits for a user task: its actor and its form. -/
def userTaskRows (n : FlowNode) : List (List Edit) :=
  if n.kind == .userTask then [setFilled "assignee" n.actor ++ setFilled "formKey" n.formKey] else []

def userTaskRound (m : Model) : Round :=
  matchedRound "userTask" m.node? (fun (place, n) =>
    if n.kind == .userTask then
      Planning.edit place (setFilled "assignee" n.actor ++ setFilled "formKey" n.formKey)
    else return) userTaskRows fun n => AreWhole (userTaskRows n)

theorem userTaskRows_set (n : FlowNode) : ∀ row ∈ userTaskRows n, ∀ edit ∈ row, SetsExtension edit := by
  intro row hr
  rw [userTaskRows] at hr
  split at hr
  · rw [mem_singleton.mp hr]
    exact forall_mem_append.mpr ⟨setFilled_sets _ _, setFilled_sets _ _⟩
  · cases hr

theorem userTaskRound_writes (m : Model) : WritesExtensions (userTaskRound m) :=
  matchedRound_writes (by decide) userTaskRows_set

theorem userTaskRound_isSound (m : Model) : (userTaskRound m).IsSound IsAdded I :=
  matchedRound_isSound (by decide) (fun n row hr e he => (userTaskRows_set n row hr e he).quiet)
    fun d _ p _ n _ => editIf_plans _ p _

/-- The edits for the vendor attributes that a node takes over. -/
def vendorRows (n : FlowNode) : List (List Edit) := (n.vendorAttributes.filter fun a => takesOver a.1).map vendorRow

/-- The vendor attributes of a node can be written. -/
def IsVendorOk (n : FlowNode) : Prop := ∀ a ∈ n.vendorAttributes, takesOver a.1 = true → IsWritable a

def vendorRound (m : Model) : Round := roundOf (planVendorAttributes m)
    (fun label id => NodeKind.all.flatMap fun kind => manualFor kind.tagName m.node? vendorRows label id)
    fun label id => ∀ kind ∈ NodeKind.all, OkFor kind.tagName m.node? IsVendorOk label id

theorem vendorAttributes_plans (hd : IsReady d) (hp : p ∈ d.root.places) (n : FlowNode) :
    Plans (n.vendorAttributes.forM fun (name, v) =>
      if takesOver name then discard (setPrefixed p name v) else return) (IsVendorOk n)
      ((vendorRows n).map (Job.mk p.path)) := by
  have hpl : Plans (n.vendorAttributes.forM fun (name, v) =>
      if takesOver name then discard (setPrefixed p name v) else return) (IsVendorOk n)
      (n.vendorAttributes.flatMap fun a => if takesOver a.1 then [⟨p.path, vendorRow a⟩] else []) := by
    refine Plans.forM fun a _ => ?_
    by_cases ht : takesOver a.1
    · have hf : isFor "camunda" a.1 := by
        rw [takesOver, Bool.and_eq_true] at ht
        exact ht.1
      simpa [ht] using (setPrefixed_plans hd hp hf).discard
    · simpa [ht] using Plans.pure ()
  refine hpl.congr Iff.rfl ?_
  rw [vendorRows]
  induction n.vendorAttributes with
  | nil => rfl
  | cons a tl ih =>
    rw [flatMap_cons, ih]
    by_cases ht : takesOver a.1
    · simp [ht]
    · simp [ht]

theorem tagName_not_quiet : ∀ k : NodeKind, bpmn k.tagName ∉ quietLabels := by
  intro k
  cases k <;> decide

theorem fits_flatMap {n : Node} {es : α → Element → List Edit} {js : α → List Job}
    (h : ∀ a, n.Fits (fun e own => own = es a e) (js a)) : ∀ xs : List α,
    n.Fits (fun e own => own = xs.flatMap fun a => es a e) (xs.flatMap js)
  | [] => by
    have hj : jobsWith (fun _ => []) (n.places [] []) = [] := flatMap_eq_nil_iff.mpr fun _ _ => rfl
    have hn := fits_jobsWith (fun _ => []) n []
    rw [hj] at hn
    exact hn
  | a :: xs => Node.Fits.append n (h a) (fits_flatMap h xs)

theorem vendorRound_writes (m : Model) : WritesExtensions (vendorRound m) := by
  refine ⟨rfl, fun l id edit he => ?_⟩
  obtain ⟨k, -, he⟩ := mem_flatMap.mp he
  have hr : ∀ n, ∀ row ∈ vendorRows n, ∀ edit ∈ row, SetsExtension edit := by
    intro n row hro
    obtain ⟨a, -, rfl⟩ := mem_map.mp hro
    exact vendorRow_sets a
  obtain ⟨hl, hs⟩ := manualFor_forall hr l id edit he
  exact ⟨hl ▸ carriesExtensions_tagName k, hs⟩

theorem vendorRound_isSound (m : Model) : (vendorRound m).IsSound IsAdded IsReady := by
  refine roundOf_isSound (fun l id edit hed => ((vendorRound_writes m).2 l id edit hed).2.quiet) (fun l id hl => ?_)
    (fun l id hl k _ => okFor_added (tagName_not_quiet k) _ l id hl) fun d hd => ?_
  · exact flatMap_eq_nil_iff.mpr fun k _ => manualFor_spares (tagName_not_quiet k) _ l id hl
  · refine ⟨_, (Plans.forM fun k _ => matched_plans fun p hp n _ =>
      vendorAttributes_plans hd hp n).congr ⟨fun ha e he k hk => ha k hk e he,
        fun ha k hk e he => ha e he k hk⟩ rfl, ?_⟩
    exact fits_flatMap (fun k => fits_jobsWith _ d.root.node []) NodeKind.all

/-- The edits of a service task with a delegate. -/
def delegateRow (n : FlowNode) : List Edit := [.ensureFirst (.element (bpmn "extensionElements") [] []),
    .within (bpmn "extensionElements") [.clear (extension "inputOutput")]]
  ++ (if n.hasEmail then
      delegateEdits "$\x7bsendEmailDelegate\x7d" [("configJson", n.emailFile), ("templateFtl", n.emailTemplate)]
    else [])
  ++ if isFilled n.restFile then
      delegateEdits "$\x7brestCallDelegate\x7d" [("restCallConfig", n.restFile)]
    else []

def delegateRows (n : FlowNode) : List (List Edit) :=
  if n.hasEmail || isFilled n.restFile then [delegateRow n] else []

def delegateRound (m : Model) : Round :=
  matchedRound "serviceTask" m.node? (fun (place, n) =>
    if n.hasEmail || isFilled n.restFile then Planning.edit place (delegateRow n) else return)
    delegateRows fun n => AreWhole (delegateRows n)

theorem parameter_quiet (name v : String) : QuietDraft IsAdded (parameter name v) :=
  .element (by decide) (by simp) (by simpa using QuietDraft.text v)

theorem delegateEdits_quiet (delegate : String) (ps : List (String × Option String)) :
    ∀ edit ∈ delegateEdits delegate ps, QuietEdit IsAdded edit := by
  intro edit he
  simp only [delegateEdits, mem_cons, not_mem_nil, or_false] at he
  rcases he with rfl | rfl
  · exact .set _ (by decide)
  · refine .within (by decide) fun t hin => ?_
    simp only [mem_cons, not_mem_nil, or_false] at hin
    rcases hin with rfl | rfl
    · exact .ensure (.element (by decide) (forall_mem_nil _) (forall_mem_nil _))
    · refine .within (by decide) fun appended ha => ?_
      obtain ⟨dr, hd, rfl⟩ := mem_map.mp ha
      obtain ⟨⟨name, v⟩, -, hv⟩ := mem_filterMap.mp hd
      obtain ⟨s, -, rfl⟩ := Option.map_eq_some_iff.mp hv
      exact .append (parameter_quiet name s)

theorem delegateRow_quiet (n : FlowNode) : ∀ edit ∈ delegateRow n, QuietEdit IsAdded edit := by
  refine forall_mem_append.mpr ⟨forall_mem_append.mpr ⟨?_, ?_⟩, ?_⟩
  · refine forall_mem_cons.mpr ⟨.ensureFirst (.element (by decide) nofun nofun), ?_⟩
    exact forall_mem_singleton.mpr (.within (by decide) (forall_mem_singleton.mpr (.clear _)))
  · split
    · exact delegateEdits_quiet _ _
    · exact forall_mem_nil _
  · split
    · exact delegateEdits_quiet _ _
    · exact forall_mem_nil _

theorem delegateRound_isSound (m : Model) : (delegateRound m).IsSound IsAdded I := by
  refine matchedRound_isSound (by decide) (fun n row hr => ?_) fun d _ p _ n _ => editIf_plans _ p _
  rw [delegateRows] at hr
  split at hr
  · rw [mem_singleton.mp hr]
    exact delegateRow_quiet n
  · cases hr

def decisionRows (n : FlowNode) : List (List Edit) :=
  if isFilled n.decision || isFilled n.resultVariable then
    [setFilled "decisionRef" n.decision ++ setFilled "resultVariable" n.resultVariable
      ++ [.set (extension "mapDecisionResult") "singleEntry"]]
  else []

def decisionRound (m : Model) : Round :=
  matchedRound "businessRuleTask" m.node? (fun (place, n) =>
    if isFilled n.decision || isFilled n.resultVariable then
      Planning.edit place (setFilled "decisionRef" n.decision ++ setFilled "resultVariable" n.resultVariable
          ++ [.set (extension "mapDecisionResult") "singleEntry"])
    else return) decisionRows fun n => AreWhole (decisionRows n)

theorem decisionRows_set (n : FlowNode) : ∀ row ∈ decisionRows n, ∀ edit ∈ row, SetsExtension edit := by
  intro row hr
  rw [decisionRows] at hr
  split at hr
  · rw [mem_singleton.mp hr]
    refine forall_mem_append.mpr ⟨forall_mem_append.mpr ⟨setFilled_sets _ _, setFilled_sets _ _⟩, ?_⟩
    exact forall_mem_singleton.mpr (.set _ rfl)
  · cases hr

theorem decisionRound_writes (m : Model) : WritesExtensions (decisionRound m) :=
  matchedRound_writes (by decide) decisionRows_set

theorem decisionRound_isSound (m : Model) : (decisionRound m).IsSound IsAdded I :=
  matchedRound_isSound (by decide) (fun n row hr e he => (decisionRows_set n row hr e he).quiet)
    fun d _ p _ n _ => editIf_plans _ p _

/-! ### Flows, processes and the document -/

def flowRows (flow : SequenceFlow) : List (List Edit) :=
  if isBlankText (flow.resolved.getD "") then [] else [conditionEdits (flow.resolved.getD "")]

def flowRound (m : Model) : Round :=
  matchedRound "sequenceFlow" (flowsById m).value? (fun (place, flow) =>
    let condition := flow.resolved.getD ""
    if isBlankText condition then return
    else Planning.edit place (conditionEdits condition)) flowRows fun flow => AreWhole (flowRows flow)

theorem conditionEdits_quiet (cnd : String) : ∀ edit ∈ conditionEdits cnd, QuietEdit IsAdded edit := by
  refine forall_mem_cons.mpr ⟨.ensure (.element (by decide) (by simp) nofun), ?_⟩
  exact forall_mem_singleton.mpr (.within (by decide) (forall_mem_singleton.mpr (.setText _)))

theorem flowRound_isSound (m : Model) : (flowRound m).IsSound IsAdded I := by
  refine matchedRound_isSound (by decide) (fun flow row hr => ?_) fun d _ p _ flow _ => ?_
  · rw [flowRows] at hr
    split at hr
    · cases hr
    · rw [mem_singleton.mp hr]
      exact conditionEdits_quiet _
  · simp only [flowRows]
    split
    · exact (Plans.pure ()).congr (by simp [AreWhole]) rfl
    · exact (Plans.edit p _).congr (by simp [AreWhole]) rfl

/-- The edits of processes, by label. -/
def processManual : Manual := fun label _ =>
  if label = bpmn "process" then [.setMissing (.plain "isExecutable") "true",
    .setMissing (extension "historyTimeToLive") Defaults.historyTimeToLive]
  else []

def definitionRound : Round where
  plan := planDefinitions
  top := fun label id => documentEdits ++ processManual label id
  below := processManual
  ok := fun _ _ => True

theorem processManual_quiet : processManual.IsQuiet IsAdded := by
  intro l id
  rw [processManual]
  split
  · exact forall_mem_cons.mpr ⟨.setMissing _ (by decide), forall_mem_singleton.mpr (.setMissing _ (by decide))⟩
  · exact forall_mem_nil _

theorem documentEdits_quiet : ∀ edit ∈ documentEdits, QuietEdit IsAdded edit := by
  simp only [documentEdits, forall_mem_cons]
  exact ⟨.set _ (by decide), .set _ (by decide), .set _ (by decide), .set _ (by decide), .setMissing _ (by decide),
    forall_mem_nil _⟩

theorem getD_processEdits (e : Element) : (processEdits e).getD [] = processManual.edits e.tag := by
  rw [processEdits, Manual.edits, processManual]
  by_cases hl : e.tag.name.label = bpmn "process"
  · rw [if_pos (is_iff.mpr hl), if_pos hl]
    rfl
  · rw [if_neg (mt is_iff.mp hl), if_neg hl]
    rfl

theorem definitionRound_isSound : definitionRound.IsSound IsAdded I where
  top l id := forall_mem_append.mpr ⟨documentEdits_quiet, processManual_quiet l id⟩
  below := processManual_quiet
  spares l id hl := by
    have hn : l ≠ bpmn "process" := fun heq => absurd (heq ▸ hl) (by decide)
    exact if_neg hn
  ok _ _ _ := trivial
  plan d _ := by
    have hf := fits_jobsFor processEdits d.root.node []
    simp only [getD_processEdits] at hf
    refine ⟨_, (planDefinitions_plans d).congr (by simp [Node.All, definitionRound]) rfl, ?_, ?_⟩
    · exact congrArg (documentEdits ++ ·) hf.1
    · refine fitsFrom_congr (fun i => ?_) _ 0 hf.2
      rfl

/-! ### All rounds -/

def allRounds (m : Model) : List Round :=
  [laneRound m, userTaskRound m, vendorRound m, delegateRound m, decisionRound m, flowRound m, definitionRound]

theorem rounds_eq_forM (m : Model) : rounds m = (allRounds m).forM fun r => Bench.round r.plan := by
  simp only [allRounds, forM_eq_forM, forM_cons, forM_nil, bind_pure_unit]
  rfl

theorem allRounds_isSound (hm : LanesHave (HasAccepted (isFor "camunda")) m) :
    ∀ r ∈ allRounds m, r.IsSound IsAdded IsReady := by
  simp only [allRounds, forall_mem_cons]
  exact ⟨laneRound_isSound hm, userTaskRound_isSound m, vendorRound_isSound m, delegateRound_isSound m,
    decisionRound_isSound m, flowRound_isSound m, definitionRound_isSound, forall_mem_nil _⟩

end ProcessForge.Camunda
