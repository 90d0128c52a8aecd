import ProcessForge.Proofs.Bonita.Plans
import ProcessForge.Proofs.Xml.Copies

/-! Fragments of vendor attributes. Each fragment of a node replaces the children that have a name in common with it,
    those of earlier fragments as well. Main statement: the elements that last are those whose names no later fragment
    has, and so all of them last just if no two fragments of an element share a name. -/

namespace ProcessForge.Bonita

open Xml List

/-! ### What an element gets -/

/-- The fragment of a vendor attribute, if it can be read. -/
def fragment? (a : String × String) : Option (List Node) :=
  if Enrichment.isFor "bonita" a.1 && !Text.isBlankText a.2 then parseFragment? a.2 else none

/-- The fragments for the element at a path: those of the nodes of whose name it is the first element. -/
def fragmentsAt (m : Model) (d : Document) (path : Path) : List (List Node) :=
  m.allNodes.flatMap fun n =>
    if ((elementsByName d none).value? (nameKey n.name)).any fun place => place.path == path then
      n.vendorAttributes.filterMap fragment?
    else []

def elementNodes (fragment : List Node) : List Node := fragment.filter fun node => node.element?.isSome

/-- Whether a node has a name in common with a fragment. -/
def replaces (fragment : List Node) (node : Node) : Bool :=
  (elementsAmong fragment).any fun e => node.is e.tag.name.label

/-- The elements of fragments that no later fragment replaces. -/
def lasting : List (List Node) → List Node
  | [] => []
  | fragment :: rest =>
    (elementNodes fragment).filter (fun node => rest.all fun later => !replaces later node) ++ lasting rest

/-- A content before and after fragments are added. The children that no fragment replaces stay, and copies of the
    elements that last come behind them. -/
def Supplied (fragments : List (List Node)) (content content' : List Node) : Prop :=
  (fragments = [] → content' = content) ∧ ∃ copies, Forall₂ Rebound (lasting fragments) copies ∧
    childNodes content'
      = (childNodes content).filter (fun node => fragments.all fun fragment => !replaces fragment node) ++ copies

mutual

/-- A node before and after fragments are added to the elements at some paths. -/
inductive Grafted (fragments : Path → List (List Node)) : Path → Node → Node → Prop
  | leaf {path : Path} {node : Node} : node.element? = none → Grafted fragments path node node
  | element {path : Path} {tag : Tag} {content inner content' : List Node} :
      GraftedFrom fragments path 0 content inner → Supplied (fragments path) inner content' →
      Grafted fragments path (.element tag content) (.element tag content')

/-- Nodes from a position on before and after fragments are added. -/
inductive GraftedFrom (fragments : Path → List (List Node)) : Path → Nat → List Node → List Node → Prop
  | nil {path : Path} {position : Nat} : GraftedFrom fragments path position [] []
  | cons {path : Path} {position : Nat} {node node' : Node} {rest rest' : List Node} :
      Grafted fragments (path ++ [position]) node node' → GraftedFrom fragments path (position + 1) rest rest' →
      GraftedFrom fragments path position (node :: rest) (node' :: rest')

end

/-- All elements last just if no two fragments share a name. -/
theorem lasting_eq_iff (fragments : List (List Node)) : lasting fragments = fragments.flatMap elementNodes ↔
    fragments.Pairwise fun fragment later => ∀ n ∈ elementNodes fragment, replaces later n = false := by
  have hlen : ∀ fragments, (lasting fragments).length ≤ (fragments.flatMap elementNodes).length := by
    intro fragments
    induction fragments with
    | nil => exact Nat.le_refl _
    | cons fragment tl ih =>
      rw [lasting, flatMap_cons, length_append, length_append]
      exact Nat.add_le_add (length_filter_le ..) ih
  induction fragments with
  | nil => simp [lasting]
  | cons fragment tl ih =>
    rw [lasting, flatMap_cons, pairwise_cons]
    refine Iff.trans ?_ (and_congr_right fun _ => ih)
    constructor
    · intro h
      have hle := congrArg length h
      rw [length_append, length_append] at hle
      have hfi := length_filter_le (fun n => tl.all fun later => !replaces later n) (elementNodes fragment)
      obtain ⟨hf, hr⟩ := append_inj h (by have := hlen tl; omega)
      refine ⟨fun later hl n hn => ?_, hr⟩
      have ha := all_eq_true.mp (filter_eq_self.mp hf n hn) later hl
      simpa using ha
    · rintro ⟨hf, hr⟩
      rw [hr, filter_eq_self.mpr fun n hn => ?_]
      refine all_eq_true.mpr fun later hl => ?_
      rw [hf later hl n hn]
      rfl

/-! ### The edits of fragments -/

theorem childNodes_graftable (following : Bool) (content : List Node) :
    childNodes (graftable following content) = elementNodes content := by
  fun_induction graftable following content with
  | case1 => rfl
  | case2 s tl ih | case3 following s tl hf ih => exact ih
  | case4 following tag content tl ih => exact congrArg (Node.element tag content :: ·) ih
  | case5 following n tl ht he ih =>
    have hl : n.element? = none := by
      cases n with
      | element tag content => exact absurd rfl (he tag content)
      | text | comment | instruction => rfl
    rw [ih, elementNodes, elementNodes, filter_cons_of_neg (by simp [hl])]

theorem applyEdits_clears (o : Scope) (tag : Tag) (tl : List Edit) : ∀ (labels : List Label) (c : List Node),
    applyEdits o tag c (labels.map Edit.clear ++ tl)
      = applyEdits o tag (labels.foldl (fun c l => removeNodes (Node.is l) false c) c) tl
  | [], _ => rfl
  | _ :: labels, _ => applyEdits_clears o tag tl labels _

theorem childNodes_clears : ∀ (labels : List Label) (c : List Node),
    childNodes (labels.foldl (fun c l => removeNodes (Node.is l) false c) c)
      = (childNodes c).filter fun n => !labels.any fun l => n.is l
  | [], c => by simp
  | label :: labels, c => by
    rw [foldl_cons, childNodes_clears labels, childNodes_removeNodes]
    simp [Bool.not_or, Bool.and_comm]

theorem Rebound.is {n copy : Node} (h : Rebound n copy) (l : Label) : copy.is l = n.is l := by
  cases h with
  | leaf => rfl
  | element ht _ => rw [Node.is, Node.is, Tag.is, Tag.is, ht.label]

theorem Rebound.isText {n copy : Node} (h : Rebound n copy) : copy.isText = n.isText := by
  cases h with
  | leaf => rfl
  | element => rfl

theorem fragmentEdits_supplied {fragment : List Node} {v : String} (h : parseFragment? v = some fragment)
    (o : Scope) (tag : Tag) (c : List Node) : Gives (applyEdits o tag c (fragmentEdits fragment)) fun r => r.1 = tag ∧
      ∃ copies, Forall₂ Rebound (elementNodes fragment) copies ∧
        childNodes r.2 = (childNodes c).filter (fun n => !replaces fragment n) ++ copies := by
  obtain ⟨d, hd, rfl⟩ := Option.map_eq_some_iff.mp h
  cases wellBound_of_parseChars hd with
  | leaf hl => cases hl
  | element ht hc =>
    rw [append_nil] at hc
    rw [fragmentEdits, applyEdits_clears, applyEdits, Edit.apply, bind_assoc]
    refine (graftAll_rebound ht.declared (tag.layer :: o) fun n hn =>
      hc n (graftable_subset _ _ hn)).bind fun copies hco => ?_
    have hch : Forall₂ Rebound (childNodes (graftable false d.root.content)) (childNodes copies) :=
      rel_filter (fun n copy hcop => by simp [Rebound.isText hcop]) hco
    refine Gives.pure ⟨rfl, childNodes copies, childNodes_graftable false _ ▸ hch, ?_⟩
    rw [childNodes_append, childNodes_clears]
    simp only [any_map]
    rfl

def AreRead (fragments : List (List Node)) : Prop :=
  ∀ fragment ∈ fragments, ∃ value, parseFragment? value = some fragment

theorem fragments_supplied (o : Scope) (tag : Tag) : ∀ {fragments : List (List Node)},
    AreRead fragments → ∀ c : List Node, Gives (applyEdits o tag c (fragments.flatMap fragmentEdits)) fun r =>
      r.1 = tag ∧ Supplied fragments c r.2
  | [], _, c => Gives.pure ⟨rfl, fun _ => rfl, [], .nil, by simp⟩
  | fragment :: tl, h, c => by
    rw [AreRead, forall_mem_cons] at h
    obtain ⟨v, hv⟩ := h.1
    rw [flatMap_cons, applyEdits_append]
    refine (fragmentEdits_supplied hv o tag c).bind fun r hr => ?_
    obtain ⟨rfl, copies, hco, hc⟩ := hr
    refine (fragments_supplied o r.1 h.2 r.2).mono fun r' hr' => ?_
    obtain ⟨ht, -, ms, hm, hc'⟩ := hr'
    have hk : Forall₂ Rebound ((elementNodes fragment).filter fun n => tl.all fun later => !replaces later n)
        (copies.filter fun n => tl.all fun later => !replaces later n) := by
      refine rel_filter (fun n copy hcop => ?_) hco
      simp [replaces, Rebound.is hcop]
    refine ⟨ht, nofun, _, rel_append hk hm, ?_⟩
    rw [hc', hc]
    simp [Bool.and_comm]

/-! ### Jobs by path -/

def editsAt (path : Path) (jobs : List Job) : List Edit := (jobs.filter fun job => job.path == path).flatMap Job.edits

theorem ownEdits_eq_editsAt (jobs : List Job) : ownEdits jobs = editsAt [] jobs := by
  refine congrArg (flatMap Job.edits) (filter_congr fun job _ => ?_)
  cases job.path <;> rfl

theorem editsAt_jobsAt (p : Nat) (pa : Path) (jobs : List Job) :
    editsAt pa (jobsAt p jobs) = editsAt (p :: pa) jobs := by
  induction jobs with
  | nil => rfl
  | cons job tl ih =>
    obtain ⟨_ | ⟨f, way⟩, es⟩ := job
    · simpa [editsAt, jobsAt] using ih
    · by_cases hf : f = p
      · by_cases hw : way = pa
        · simpa [editsAt, jobsAt, hf, hw] using ih
        · simpa [editsAt, jobsAt, hf, hw] using ih
      · simpa [editsAt, jobsAt, hf] using ih

theorem isOfTag_fragmentEdits (fragments : List (List Node)) :
    ∀ e ∈ fragments.flatMap fragmentEdits, e.isOfTag = false := by
  intro e he
  obtain ⟨fragment, -, he⟩ := mem_flatMap.mp he
  rcases mem_append.mp he with he | he
  · obtain ⟨l, -, rfl⟩ := mem_map.mp he
    rfl
  · rw [mem_singleton.mp he]
    rfl

mutual

theorem perform_grafted {fragments : Path → List (List Node)} (hre : ∀ p, AreRead (fragments p)) :
    ∀ (n : Node) (o : Scope) (p : Path) (js : List Job),
    (∀ way, editsAt way js = (fragments (p ++ way)).flatMap fragmentEdits) →
    Gives (n.perform o js) (Grafted fragments p n)
  | .element tag c, o, p, js, h => by
    have ho : ownEdits js = (fragments p).flatMap fragmentEdits := by
      rw [ownEdits_eq_editsAt, h, append_nil]
    rw [perform_element, ho, filter_eq_nil_iff.mpr fun e he => by simp [isOfTag_fragmentEdits _ e he],
      filter_eq_self.mpr fun e he => by simp [isOfTag_fragmentEdits _ e he], applyEdits, pure_bind]
    refine (performFrom_grafted hre c _ p js 0 fun i way => h (i :: way)).bind fun t hin => ?_
    refine (fragments_supplied o tag (hre p) t).bind fun r hr => ?_
    obtain ⟨rfl, hs⟩ := hr
    exact Gives.pure (.element hin hs)
  | .text _, _, _, _, _ | .comment _, _, _, _, _ | .instruction _ _, _, _, _, _ => by
    rw [Node.perform]
    · exact Gives.pure (.leaf rfl)
    · exact nofun

theorem performFrom_grafted {fragments : Path → List (List Node)} (hr : ∀ pa, AreRead (fragments pa)) :
    ∀ (c : List Node) (o : Scope) (pa : Path) (js : List Job) (p : Nat),
    (∀ i way, editsAt (i :: way) js = (fragments (pa ++ i :: way)).flatMap fragmentEdits) →
    Gives (performFrom o js p c) (GraftedFrom fragments pa p c)
  | [], _, _, _, _, _ => Gives.pure .nil
  | n :: tl, o, pa, js, p, h => by
    refine (perform_grafted hr n o (pa ++ [p]) _ fun way => ?_).bind fun n' hn => ?_
    · rw [editsAt_jobsAt, h, append_assoc, singleton_append]
    · refine (performFrom_grafted hr tl o pa js _ h).bind fun tl' hre => ?_
      exact Gives.pure (.cons hn hre)

end

/-! ### The step -/

def fragmentJobs (d : Document) (n : FlowNode) : List Job :=
  (((elementsByName d none).value? (nameKey n.name)).map fun place =>
    (n.vendorAttributes.filterMap fragment?).map fun fragment => ⟨place.path, fragmentEdits fragment⟩).getD []

theorem cutEdits_fragmentEdits (fragment : List Node) : (cutEdits (fragmentEdits fragment)).2 := by
  have hc : ∀ labels : List Label, (cutEdits (labels.map Edit.clear)).2 := by
    intro labels
    induction labels with
    | nil => rw [map_nil, cutEdits]
    | cons l tl ih => rw [map_cons, cutEdits_cons, ih, Edit.cut, Bool.and_self]
  rw [fragmentEdits, cutEdits_append, hc]
  rfl

theorem planFragments_plans (m : Model) (d : Document) :
    Plans (planFragments m d) True (m.allNodes.flatMap (fragmentJobs d)) := by
  refine (show Plans (planFragments m d) (∀ n ∈ m.allNodes, True) _ from Plans.forM fun n _ => ?_).congr (by simp) rfl
  rw [fragmentJobs]
  cases (elementsByName d none).value? (nameKey n.name) with
  | none => exact .pure _
  | some p =>
    refine Plans.congr (show Plans _ (∀ a ∈ n.vendorAttributes, True) (n.vendorAttributes.flatMap fun a =>
      ((fragment? a).map fun fragment => Job.mk p.path (fragmentEdits fragment)).toList) from
      Plans.forM fun a _ => ?_) (by simp) ?_
    · simp only [fragment?]
      split
      · cases parseFragment? a.2 with
        | none => exact .note _
        | some fragment => exact (Plans.edit p _).congr (by simp [cutEdits_fragmentEdits]) rfl
      · exact .pure _
    · rw [Option.map_some, Option.getD_some, map_filterMap, filterMap_eq_flatMap_toList]

theorem editsAt_fragmentJobs (m : Model) (d : Document) (pa : Path) :
    editsAt pa (m.allNodes.flatMap (fragmentJobs d)) = (fragmentsAt m d pa).flatMap fragmentEdits := by
  rw [editsAt, fragmentsAt, filter_flatMap, flatMap_assoc, flatMap_assoc]
  refine flatMap_congr fun n _ => ?_
  rw [fragmentJobs]
  cases (elementsByName d none).value? (nameKey n.name) with
  | none => rfl
  | some p =>
    rw [Option.map_some, Option.getD_some, filter_map, flatMap_map]
    by_cases hp : p.path = pa
    · simp [hp, Function.comp_def]
    · simp [hp, Function.comp_def]

theorem fragmentsAt_read (m : Model) (d : Document) (p : Path) : AreRead (fragmentsAt m d p) := by
  intro fragment hf
  obtain ⟨n, -, hm⟩ := mem_flatMap.mp hf
  split at hm
  · obtain ⟨a, -, ha⟩ := mem_filterMap.mp hm
    rw [fragment?] at ha
    split at ha
    · exact ⟨a.2, ha⟩
    · cases ha
  · cases hm

/-- The step always succeeds, and every element gets the elements of its fragments that no later one replaces; these
    are all of them just if no two of the fragments share a name. -/
theorem fragments_last_iff (content : Content) (desk : Desk) :
    ∃ desk', (Step.run content .fragments).run desk = (.ok (), desk') ∧
      Grafted (fragmentsAt content.model desk.bench.document) [] desk.root.node desk'.root.node ∧
      ∀ path, lasting (fragmentsAt content.model desk.bench.document path)
          = (fragmentsAt content.model desk.bench.document path).flatMap elementNodes ↔
        (fragmentsAt content.model desk.bench.document path).Pairwise fun fragment later =>
          ∀ node ∈ elementNodes fragment, replaces later node = false := by
  have hplans := planFragments_plans content.model desk.bench.document
  obtain ⟨u, bench, hrun⟩ := exists_round_ok hplans trivial
  obtain ⟨jobs, nextId, rfl, hdocument⟩ := round_ok hplans.yields hrun
  refine ⟨{ desk with bench := bench }, by rw [Step.run, run_onBench, hrun], ?_, fun path => lasting_eq_iff _⟩
  change Grafted _ _ _ bench.document.root.node
  rw [hdocument]
  refine root_of_perform (perform_grafted (fragmentsAt_read _ _) desk.root.node [] [] _ fun way => ?_) nextId
  exact editsAt_fragmentJobs content.model desk.bench.document way

def noteContent : Content :=
  { model := { processes := [{ id := "p", nodes := [("t", {
      id := "t", kind := .userTask, name := some "T"
      vendorAttributes := [("bonita:a", "<note text=\"one\"/>"), ("bonita:b", "<note text=\"two\"/>")] })] }] } }

def noteDesk : Desk :=
  { bench := { document := { root := ⟨{
      name := { space := none, stem := "elements" }
      attributes := [⟨{ space := none, stem := "name" }, "T"⟩] }, []⟩ }, nextId := 0, notices := [] } }

def note (text : String) : List Node :=
  [.element { name := { space := none, stem := "note" }, attributes := [⟨{ space := none, stem := "text" }, text⟩] } []]

theorem fragments_note : ∃ n, noteContent.model.allNodes = [n] ∧ nameKey n.name = nameKey (some "T") ∧
    n.vendorAttributes.filterMap fragment? = [note "one", note "two"] := by
  refine ⟨_, rfl, rfl, ?_⟩
  have hone : fragment? ("bonita:a", "<note text=\"one\"/>") = some (note "one") :=
    (if_pos (by decide +kernel)).trans (by decide +kernel)
  have htwo : fragment? ("bonita:b", "<note text=\"two\"/>") = some (note "two") :=
    (if_pos (by decide +kernel)).trans (by decide +kernel)
  exact (filterMap_cons_some hone).trans (congrArg _ (filterMap_cons_some htwo))

/-- The second note replaces the first one. -/
theorem first_note_lost :
    ((fragmentsAt noteContent.model noteDesk.bench.document []).flatMap elementsAmong).map (fun e => e.tag.get? "text")
      = [some "one", some "two"] ∧
    (elementsAmong ((Step.run noteContent .fragments).run noteDesk).2.root.content).map (fun e => e.tag.get? "text")
      = [some "two"] := by
  obtain ⟨n, hn, hk, hf⟩ := fragments_note
  have hp : ((elementsByName noteDesk.bench.document none).value? (nameKey (some "T"))).map (·.path) = some [] := by
    decide +kernel
  obtain ⟨p, hv, hpath⟩ := Option.map_eq_some_iff.mp hp
  constructor
  · have hat : fragmentsAt noteContent.model noteDesk.bench.document [] = [note "one", note "two"] := by
      rw [fragmentsAt, hn, flatMap_singleton, hk, hv, if_pos (by simp [hpath]), hf]
    rw [hat]
    decide +kernel
  · have hj : noteContent.model.allNodes.flatMap (fragmentJobs noteDesk.bench.document)
        = [note "one", note "two"].map fun fragment => ⟨[], fragmentEdits fragment⟩ := by
      rw [hn, flatMap_singleton, fragmentJobs, hk, hv, hf, Option.map_some, hpath]
      rfl
    have hplans := planFragments_plans noteContent.model noteDesk.bench.document
    obtain ⟨u, bench, hrun⟩ := exists_round_ok hplans trivial
    obtain ⟨jobs, nextId, hjobs, hd⟩ := round_ok hplans.yields hrun
    rw [Step.run, run_onBench, hrun]
    change (elementsAmong bench.document.root.content).map _ = _
    rw [hd, hjobs, hj]
    rfl

end ProcessForge.Bonita
