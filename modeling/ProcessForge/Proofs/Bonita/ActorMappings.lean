import ProcessForge.Proofs.Bonita.Mappings
import ProcessForge.Proofs.Xml.Sheet

/-! What a configuration says about its lanes when it is read again. Its text is that of a tree, but for the marks of
    markup, which it writes in a way of its own. So the lanes come back, as long as no name has line breaks or tabs. -/

namespace ProcessForge.Bonita

open Xml Text List
open String (ofList toList_ofList toList_append toList_join)

variable {cs : List Char} {c : Char} {s : String} {lane : Lane} {lanes : List Lane} {m : Model}
  {org : Option Organization}

/-! ### Escaped values -/

def isMark (c : Char) : Bool := c == '&' || c == '<' || c == '>' || c == '\'' || c == '"'

theorem escapeMark_of_not_isMark (h : isMark c = false) : escapeMark c = [c] := by
  unfold escapeMark
  split <;> first | rfl | cases h

/-- A way to write characters, with the marks of markup written as a configuration does. -/
def markedBy (e : Escape) : Escape where
  chars c := if isMark c then escapeMark c else e.chars c
  escaped c := isMark c || e.escaped c
  reference c h := by
    by_cases hm : isMark c
    · rw [if_pos hm]
      simp only [isMark, Bool.or_eq_true, beq_iff_eq] at hm
      rcases hm with (((rfl | rfl) | rfl) | rfl) | rfl <;> exact ⟨_, rfl, by decide, fun _ => rfl⟩
    · rw [if_neg hm]
      exact e.reference c (by simpa [hm] using h)
  plain c h := by
    rw [Bool.or_eq_false_iff] at h
    rw [if_neg (by simp [h.1]), e.plain c h.2]
  marks c h := by simp [e.marks c h]

def marking : Writer where
  value := markedBy printed.value
  text := markedBy printed.text
  quotes c h := by simp [markedBy, printed.quotes c h]
  blanks c h := by
    have hm : isMark c = false := by
      refine Bool.eq_false_iff.mpr fun hm => ?_
      simp only [isMark, Bool.or_eq_true, beq_iff_eq] at hm
      rcases hm with (((rfl | rfl) | rfl) | rfl) | rfl <;> exact absurd h (by decide)
    simp [markedBy, printed.blanks c h, hm]

theorem flatMap_markedBy {e : Escape} (h : ∀ c ∈ cs, isMark c ∨ e.escaped c = false) :
    cs.flatMap (markedBy e).chars = cs.flatMap escapeMark := by
  refine flatMap_congr fun c hc => ?_
  simp only [markedBy]
  split
  · rfl
  · next hm => rw [e.plain c ((h c hc).resolve_left hm), escapeMark_of_not_isMark (by simpa using hm)]

/-! ### Values that come back -/

/-- A character that ends no line, or that ends it with a line feed. -/
def isCalm (c : Char) : Bool := !isLineBreak c || c == '\n'

/-- A value of an attribute on one line and without tabs. -/
def isLegible (s : String) : Bool := isAllowedText s && s.toList.all fun c => !isLineBreak c && c != '\t'

/-- A text whose lines end with line feeds, and that is not blank. -/
def isLegibleText (s : String) : Bool :=
  isAllowedText s && s.toList.all isCalm && !(tidyText s).toList.all isSpace

def lanesOf (m : Model) : List Lane := m.processes.flatMap Process.lanes

/-- The actor of a lane, unless it is empty. -/
def actorOf? (lane : Lane) : Option String := lane.actor.filter (· != "")

structure IsLegibleLane (lane : Lane) : Prop where
  name : isLegible (lane.name.getD "") = true
  actor : ∀ s, actorOf? lane = some s → isLegibleText s = true

theorem all_isCalm_of_isLegible (h : isLegible s) : s.toList.all isCalm := by
  refine all_eq_true.mpr fun c hc => ?_
  have hl := all_eq_true.mp (Bool.and_eq_true_iff.mp h).2 c hc
  simp_all [isCalm]

theorem isLegibleText_iff : isLegibleText s ↔
    (isAllowedText s ∧ s.toList.all isCalm) ∧ (tidyText s).toList.all isSpace = false := by
  rw [isLegibleText, Bool.and_eq_true_iff, Bool.and_eq_true_iff, Bool.not_eq_true']

theorem flatMap_value (h : isLegible s) : s.toList.flatMap marking.value.chars = s.toList.flatMap escapeMark := by
  refine flatMap_markedBy fun c hc => or_iff_not_imp_left.mpr fun hm => Bool.eq_false_iff.mpr fun he => ?_
  have hl := all_eq_true.mp (Bool.and_eq_true_iff.mp h).2 c hc
  simp only [printed, isEscaped, Bool.or_eq_true, beq_iff_eq] at he
  rcases he with ((rfl | rfl) | rfl) | ((rfl | rfl) | rfl) | rfl
  all_goals first | exact hm (by decide) | exact absurd hl (by decide)

theorem flatMap_text (h : s.toList.all isCalm) : s.toList.flatMap marking.text.chars = s.toList.flatMap escapeMark := by
  refine flatMap_markedBy fun c hc => or_iff_not_imp_left.mpr fun hm => Bool.eq_false_iff.mpr fun he => ?_
  have hl := all_eq_true.mp h c hc
  simp only [printed, isEscaped, Bool.or_eq_true, beq_iff_eq] at he
  rcases he with ((rfl | rfl) | rfl) | rfl
  all_goals first | exact hm (by decide) | exact absurd hl (by decide)

theorem all_isCalm_escaped (h : cs.all isCalm) : (cs.flatMap escapeMark).all isCalm := by
  rw [all_flatMap, all_eq_true]
  intro c hc
  cases hm : isMark c with
  | true =>
    simp only [isMark, Bool.or_eq_true, beq_iff_eq] at hm
    rcases hm with (((rfl | rfl) | rfl) | rfl) | rfl <;> rfl
  | false => simp [escapeMark_of_not_isMark hm, all_eq_true.mp h c hc]

/-! ### The tree of a configuration -/

def configurationSpace : Namespace := ⟨some "configuration", "http://www.bonitasoft.org/ns/bpm/configuration"⟩

/-- A node without namespaces. -/
def branch (stem : String) (attributes : List (String × String)) (content : List Node) : Node :=
  .element ⟨.plain stem, [], attributes.map fun a => ⟨.plain a.1, a.2⟩⟩ content

def laneContent (lane : Lane) : List Node := [branch "groups" [] [], branch "memberships" [] [], branch "roles" [] [],
  branch "users" [] ((actorOf? lane).toList.map fun actor => branch "user" [] [.text actor])]

def laneNode (lane : Lane) : Node := branch "actorMapping" [("name", lane.name.getD "")] (laneContent lane)

/-- The lanes of a configuration, each on lines of its own. -/
def lanesNode (lanes : List Lane) : Node := branch "actorMappings" [] (laidOutAll 1 (lanes.map laneNode))

def connectorNodes : List Node :=
  let definition := fun id version implementation => branch "definitionMappings" [("type", "CONNECTOR"),
    ("definitionId", id), ("definitionVersion", version), ("implementationId", implementation.1),
    ("implementationVersion", implementation.2)] []
  let dependencies := fun id key files =>
    branch "processDependencies" [("id", "CONNECTOR")] [branch "children" [("id", id)]
    (files.map fun file => branch "fragments" [("key", key), ("value", file), ("type", "CONNECTOR")] [])]
  [definition "email" "1.2.0" ("email-impl", "1.3.0"), definition "rest-post" "1.5.0" ("rest-post-impl", "1.5.0"),
    dependencies "email-impl-1.3.0" "email-impl -- 1.3.0" ["bonita-connector-email-1.3.0.jar", "javax.mail-1.6.2.jar",
      "javax.mail-api-1.6.2.jar"],
    dependencies "rest-post-impl-1.5.0" "rest-post-impl -- 1.5.0" ["bonita-connector-rest-1.5.0.jar"],
    branch "processDependencies" [("id", "ACTOR_FILTER")] [], branch "processDependencies" [("id", "OTHER")] []]

def rootTag (user : String) : Tag := ⟨⟨some configurationSpace, "Configuration"⟩, [configurationSpace],
  [⟨.plain "name", "Local"⟩, ⟨.plain "version", "9"⟩, ⟨.plain "username", user⟩]⟩

def configurationSheet (user : String) (lanes : List Lane) : Sheet :=
  ⟨"1.0", none, [], none, [], .element (rootTag user) (laidOutAll 0 (lanesNode lanes :: connectorNodes)), []⟩

/-! ### The text of a configuration -/

theorem chars_newline (w : Writer) : w.text.chars '\n' = ['\n'] := w.text.plain _ (w.blanks _ rfl)

theorem chars_indentation (w : Writer) (l : Nat) :
    (indentation l).toList.flatMap w.text.chars = replicate (2 * min l 30) ' ' := by
  rw [indentation, toList_ofList]
  exact w.text.flatMap_plain fun c hc => w.blanks c (by rw [eq_of_mem_replicate hc]; rfl)

attribute [local simp] charsOfBy branch Node.laidOut laidOutAll Node.charsBy chars_newline chars_indentation Tag.charsBy
  Tag.rawAttributes Writer.attribute Node.isText Name.raw Name.plain RawName.chars replicate

theorem newline_laneMapping (h : IsLegibleLane lane) (rest : List Char) : '\n' :: ((laneMapping lane).toList ++ rest)
    = charsOfBy marking [.text ("\n" ++ indentation 2), (laneNode lane).laidOut 2] ++ '\n' :: rest := by
  obtain ⟨hn, ha⟩ := h
  unfold actorOf? at ha
  unfold laneMapping laneNode laneContent escapeMarks actorOf?
  cases hl : lane.actor.filter (· != "") with
  | none => simp [flatMap_value hn]
  | some actor =>
    have ht := flatMap_text (isLegibleText_iff.mp (ha actor hl)).1.2
    simp [flatMap_value hn, ht]

theorem newline_lanes (h : ∀ lane ∈ lanes, IsLegibleLane lane) (rest : List Char) :
    '\n' :: (lanes.flatMap (fun lane => (laneMapping lane).toList) ++ ' ' :: ' ' :: rest)
      = charsOfBy marking (laidOutAll 1 (lanes.map laneNode)) ++ rest := by
  induction lanes with
  | nil => simp
  | cons lane lanes ih =>
    rw [forall_mem_cons] at h
    rw [flatMap_cons, append_assoc, newline_laneMapping h.1, ih h.2, map_cons, laidOutAll]
    simp [nil_append]

theorem newline_connectorPart : '\n' :: connectorPart.toList
    = charsOfBy marking (laidOutAll 0 connectorNodes) ++ "</configuration:Configuration>\n".toList := by
  unfold connectorPart definitionMapping dependencies emailFiles callFiles Defaults.emailVersion Defaults.restVersion
  simp only [toList_append, toList_join, map_cons, map_nil, flatMap_cons, flatMap_nil]
  unfold dependency
  simp only [toList_append]
  repeat rw [toList_ofList]
  decide +kernel

/-- The text and the tree begin in the same way. -/
theorem exists_opening : ∃ opening : List Char, opening.all isCalm ∧ (∀ (m : Model) (org : Option Organization),
      (actorPart m org).toList = opening ++ (firstUser org).toList.flatMap escapeMark ++ "\">\n".toList
        ++ "  <actorMappings>\n".toList ++ (lanesOf m).flatMap fun lane => (laneMapping lane).toList) ∧
    ∀ user rest, declarationChars "1.0" none ++ '\n' :: '<' :: ((rootTag user).charsBy marking ++ rest)
      = opening ++ (user.toList.flatMap marking.value.chars ++ '"' :: rest) := by
  refine ⟨declarationChars "1.0" none ++ '\n' :: '<' :: ((rootTag "").name.raw.chars
    ++ ((rootTag "").rawAttributes.dropLast.flatMap marking.attribute ++ " username=\"".toList)), by decide +kernel,
    fun m org => ?_, fun user rest => ?_⟩
  · unfold actorPart escapeMarks
    simp only [toList_append, toList_join, toList_ofList, flatMap_map]
    refine congrArg (· ++ _ ++ _ ++ _ ++ _) ?_
    repeat rw [toList_ofList]
    decide +kernel
  · simp [rootTag]

theorem laidOut_lanesNode (lanes : List Lane) : (lanesNode lanes).laidOut 1 = lanesNode lanes := by
  cases lanes <;> rfl

theorem charsBy_lanesNode (lanes : List Lane) : (lanesNode lanes).charsBy marking = "<actorMappings>".toList
    ++ (charsOfBy marking (laidOutAll 1 (lanes.map laneNode)) ++ "</actorMappings>".toList) := by
  cases lanes <;> simp [lanesNode]

theorem all_isCalm_laneMapping (h : IsLegibleLane lane) : (laneMapping lane).toList.all isCalm := by
  obtain ⟨hn, ha⟩ := h
  have hv := all_isCalm_escaped (all_isCalm_of_isLegible hn)
  unfold laneMapping escapeMarks
  cases hl : lane.actor.filter (· != "") with
  | none =>
    simp only [toList_append, toList_ofList, all_append, hv]
    repeat rw [toList_ofList]
    rfl
  | some actor =>
    have ht := all_isCalm_escaped (isLegibleText_iff.mp (ha actor hl)).1.2
    simp only [toList_append, toList_ofList, all_append, hv, ht]
    repeat rw [toList_ofList]
    rfl

theorem localConfiguration_sheet (hu : isLegible (firstUser org)) (h : ∀ lane ∈ lanesOf m,
    IsLegibleLane lane) : localConfiguration m org = ofList (tidy ((configurationSheet (firstUser org)
      (lanesOf m)).charsBy marking)) := by
  obtain ⟨opening, hcalm, hm, ho⟩ := exists_opening
  have ht : (actorPart m org).toList ++ "  </actorMappings".toList ++ '>' :: '\n' :: connectorPart.toList
      = (configurationSheet (firstUser org) (lanesOf m)).charsBy marking := by
    rw [hm, newline_connectorPart, ← flatMap_value hu]
    simp only [Sheet.charsBy, configurationSheet, remarkChars, flatMap_nil, Option.elim_none, nil_append, Node.charsBy,
      cons_append, append_assoc, ho]
    simp [newline_lanes h, laidOut_lanesNode, charsBy_lanesNode, rootTag, configurationSpace]
  have hs : ((actorPart m org).toList ++ "  </actorMappings".toList ++
      '>' :: '\n' :: connectorPart.toList).all isCalm := by
    have hl : ((lanesOf m).flatMap fun lane => (laneMapping lane).toList).all isCalm := by
      rw [all_flatMap, all_eq_true]
      exact fun lane hm => all_isCalm_laneMapping (h lane hm)
    rw [hm, newline_connectorPart]
    simp only [all_append, all_cons, hcalm, all_isCalm_escaped (all_isCalm_of_isLegible hu), hl]
    decide +kernel
  obtain ⟨cs, hc⟩ : ∃ cs, (configurationSheet (firstUser org) (lanesOf m)).charsBy marking = '<' :: cs ++ ['\n'] := by
    refine ⟨(declarationChars "1.0" none).tail ++ '\n' :: (configurationSheet (firstUser org)
      (lanesOf m)).root.charsBy marking, ?_⟩
    simp [Sheet.charsBy, configurationSheet, remarkChars, declarationChars]
  rw [localConfiguration_eq, ht, hc]
  rw [ht, hc] at hs
  refine dropBlankLines_eq (by decide) fun c hm hb => ?_
  have hl := all_eq_true.mp hs c (by simp [hm])
  simpa [isCalm, hb] using hl

/-! ### Trees that can be written -/

/-- Whether a tag is read again from its text inside of a configuration. -/
def isPlain (stem : String) (attributes : List (String × String)) : Bool :=
  isNcName stem && attributes.all (fun a => isNcName a.1 && isAllowedText a.2)
    && resolveTag? [configurationSpace] ⟨none, stem⟩ (attributes.map fun a => (⟨none, a.1⟩, a.2))
      == some (⟨.plain stem, [], attributes.map fun a => ⟨.plain a.1, a.2⟩⟩, [configurationSpace])

theorem isPrintable_branch {stem : String} {attributes : List (String × String)} {content : List Node}
    (h : isPlain stem attributes) (hc : ArePrintable [configurationSpace] content) :
    (branch stem attributes content).IsPrintable [configurationSpace] := by
  simp only [isPlain, Bool.and_eq_true, beq_iff_eq, all_eq_true] at h
  obtain ⟨⟨hs, ha⟩, hr⟩ := h
  have hm : ∀ tag : Tag, tag = ⟨.plain stem, [], attributes.map fun a => ⟨.plain a.1, a.2⟩⟩ →
      tag.rawAttributes = attributes.map fun a => (⟨none, a.1⟩, a.2) := by
    rintro tag rfl
    rw [Tag.rawAttributes, map_map]
    rfl
  refine ⟨⟨⟨⟨by simp, hs⟩, ?_⟩, ?_⟩, hc⟩
  · rw [hm _ rfl]
    exact forall_mem_map.mpr fun a hm => ⟨⟨by simp, (ha a hm).1⟩, (ha a hm).2⟩
  · rw [hm _ rfl]
    exact hr

theorem isPrintable_laneNode (h : IsLegibleLane lane) : (laneNode lane).IsPrintable [configurationSpace] := by
  have hp : isPlain "actorMapping" [("name", lane.name.getD "")] := by
    simp only [isPlain, Bool.and_eq_true, beq_iff_eq, all_cons, all_nil, (Bool.and_eq_true_iff.mp h.name).1]
    exact ⟨⟨by decide, by decide⟩, rfl⟩
  refine isPrintable_branch hp ⟨isPrintable_branch (by decide) trivial, isPrintable_branch (by decide) trivial,
    isPrintable_branch (by decide) trivial, isPrintable_branch (by decide) ?_, trivial⟩
  cases hl : actorOf? lane with
  | none => trivial
  | some actor =>
    exact ⟨isPrintable_branch (by decide) ⟨(isLegibleText_iff.mp (h.actor actor hl)).1.1, trivial⟩, trivial⟩

theorem arePrintable_connectorNodes : ArePrintable [configurationSpace] connectorNodes := by
  have hf := fun key file (h : isPlain "fragments" [("key", key), ("value", file), ("type", "CONNECTOR")]) =>
    @isPrintable_branch _ _ [] h trivial
  exact ⟨isPrintable_branch (by decide) trivial, isPrintable_branch (by decide) trivial,
    isPrintable_branch (by decide) ⟨isPrintable_branch (by decide)
      ⟨hf _ _ (by decide), hf _ _ (by decide), hf _ _ (by decide), trivial⟩, trivial⟩,
    isPrintable_branch (by decide) ⟨isPrintable_branch (by decide) ⟨hf _ _ (by decide), trivial⟩, trivial⟩,
    isPrintable_branch (by decide) trivial, isPrintable_branch (by decide) trivial, trivial⟩

theorem areJoined_laidOutAll {l : Nat} {ns : List Node}
    (h : ∀ n ∈ ns, n.isText = false ∧ (n.laidOut (l + 1)).IsJoined) :
    AreJoined (laidOutAll l ns) := by
  induction ns with
  | nil => exact ⟨trivial, fun _ => rfl, trivial⟩
  | cons n ns ih =>
    rw [forall_mem_cons] at h
    refine ⟨trivial, fun _ => ?_, h.1.2, fun ht => ?_, ih h.2⟩
    · rw [← h.1.1, ← isText_laidOut (l + 1) n]
      rfl
    · rw [isText_laidOut, h.1.1] at ht
      cases ht

theorem isJoined_laneNode (lane : Lane) : ((laneNode lane).laidOut 2).IsJoined := by
  unfold laneNode laneContent
  cases actorOf? lane <;> simp [Node.IsJoined, AreJoined, startsWithText]

theorem isWritten_rootTag {user : String} (h : isAllowedText user) : (rootTag user).IsWritten := by
  have hd : isNcName "configuration" := by decide
  have hx : isNcName "xmlns" := by decide
  have hp : ∀ stem value, isNcName stem → isAllowedText value → IsWrittenAttribute (⟨none, stem⟩, value) :=
    fun stem value hs hv => ⟨⟨by simp, hs⟩, hv⟩
  refine ⟨⟨fun short hs => Option.some.inj hs ▸ hd, (by decide : isNcName "Configuration")⟩,
    forall_mem_cons.mpr ⟨⟨⟨fun short hs => Option.some.inj hs ▸ hx, hd⟩, by decide⟩, forall_mem_map.mpr ?_⟩⟩
  exact forall_mem_cons.mpr ⟨hp "name" "Local" (by decide) (by decide), forall_mem_cons.mpr
    ⟨hp "version" "9" (by decide) (by decide), forall_mem_singleton.mpr (hp "username" user (by decide) h)⟩⟩

theorem isPrintable_configurationSheet {user : String} (hu : isAllowedText user)
    (h : ∀ lane ∈ lanes, IsLegibleLane lane) : (configurationSheet user lanes).IsPrintable := by
  have hno : AreRemarks [] := by simp [AreRemarks]
  have hl : (lanesNode lanes).IsPrintable [configurationSpace] := by
    refine isPrintable_branch (by decide) (arePrintable_laidOutAll 1 (arePrintable_iff.mpr ?_))
    exact forall_mem_map.mpr fun lane hm => isPrintable_laneNode (h lane hm)
  refine ⟨(by decide : isReadableVersion "1.0".toList), hno, by simp [configurationSheet], hno,
    ⟨⟨isWritten_rootTag hu, rfl⟩, arePrintable_laidOutAll 0 ⟨hl, arePrintable_connectorNodes⟩⟩,
    areJoined_laidOutAll (forall_mem_cons.mpr ⟨⟨rfl, ?_⟩, ?_⟩), rfl, hno⟩
  · rw [laidOut_lanesNode]
    exact areJoined_laidOutAll (forall_mem_map.mpr fun lane _ => ⟨rfl, isJoined_laneNode lane⟩)
  · simp [connectorNodes, Node.IsJoined, AreJoined, startsWithText]

/-! ### Lanes that are read -/

/-- An element that was read, and the one that was written. -/
def IsReadAs (a b : Element) : Prop := a.tag = b.tag ∧ Kept a.content b.content

theorem isReadAs_elements {ms ns : List Node} (h : Kept ms ns) :
    Forall₂ IsReadAs (elementsBelow ms) (elementsBelow ns) := by
  induction h with
  | nil => exact .nil
  | blank _ _ ih => exact ih
  | leaf hn _ ih => simpa [elements_leaf hn] using ih
  | element hc _ ihc ih =>
    exact .cons ⟨rfl, hc⟩ (rel_append ihc ih)

theorem isReadAs_descendants {a b : Element} (h : IsReadAs a b) (label : Label) :
    Forall₂ IsReadAs (a.descendants label) (b.descendants label) :=
  rel_filter (fun _ _ hab => by simp [hab.1]) (isReadAs_elements h.2)

/-- The lanes that a configuration maps, with their users. -/
def actorMappings (d : Document) : List (Option String × List (Option String)) :=
  (d.root.descendants (.plain "actorMapping")).map fun e =>
    (e.tag.get? "name", (e.descendants (.plain "user")).map Element.text?)

/-- The name and the user that a lane stands for, with the user changed. -/
def mappingOf (change : String → String) (lane : Lane) : Option String × List (Option String) :=
  (some (lane.name.getD ""), (actorOf? lane).toList.map fun actor => some (change actor))

/-- What is written of a lane, without the blank lines of its user. -/
def laneElement (lane : Lane) : Element := ⟨⟨.plain "actorMapping", [], [⟨.plain "name", lane.name.getD ""⟩]⟩,
  mapTextAll tidyText (laidOutAll 2 (laneContent lane))⟩

def rootElement (user : String) (lanes : List Lane) : Element :=
  ⟨rootTag user, mapTextAll tidyText (laidOutAll 0 (lanesNode lanes :: connectorNodes))⟩

theorem filter_lanes (lanes : List Lane) :
    (elementsBelow (mapTextAll tidyText (laidOutAll 1 (lanes.map laneNode)))).filter
    (fun e => e.tag.is (.plain "actorMapping")) = lanes.map laneElement := by
  induction lanes with
  | nil => rfl
  | cons lane lanes ih =>
    have hl : (laneElement lane).elements.filter (fun e => e.tag.is (.plain "actorMapping")) = [laneElement lane] := by
      unfold laneElement laneContent
      cases actorOf? lane <;> rfl
    have hc : elementsBelow (mapTextAll tidyText (laidOutAll 1 ((lane :: lanes).map laneNode)))
        = (laneElement lane).elements ++ elementsBelow (mapTextAll tidyText (laidOutAll 1 (lanes.map laneNode))) := rfl
    rw [hc, filter_append, hl, ih]
    rfl

theorem descendants_rootElement (user : String) (lanes : List Lane) :
    (rootElement user lanes).descendants (.plain "actorMapping") = lanes.map laneElement := by
  have hc : (elementsBelow (mapTextAll tidyText (laidOutAll 0 connectorNodes))).filter
      (fun e => e.tag.is (.plain "actorMapping")) = [] := rfl
  have hs : elementsBelow (rootElement user lanes).content
      = ⟨⟨.plain "actorMappings", [], []⟩, mapTextAll tidyText (laidOutAll 1 (lanes.map laneNode))⟩
        :: (elementsBelow (mapTextAll tidyText (laidOutAll 1 (lanes.map laneNode)))
          ++ elementsBelow (mapTextAll tidyText (laidOutAll 0 connectorNodes))) := by
    rw [rootElement, laidOutAll, laidOut_lanesNode]
    rfl
  rw [Element.descendants, hs, filter_cons_of_neg Bool.false_ne_true, filter_append, filter_lanes, hc, append_nil]

theorem mapping_eq {e : Element} (h : IsLegibleLane lane) (he : IsReadAs e (laneElement lane)) :
    (e.tag.get? "name", (e.descendants (.plain "user")).map Element.text?) = mappingOf tidyText lane := by
  have hd := isReadAs_descendants he (.plain "user")
  have hu : (laneElement lane).descendants (.plain "user") = (actorOf? lane).toList.map fun actor =>
      ⟨⟨.plain "user", [], []⟩, [.text (tidyText actor)]⟩ := by
    unfold laneElement laneContent
    cases actorOf? lane <;> rfl
  rw [hu] at hd
  have ht : (e.descendants (.plain "user")).map Element.text? =
      (actorOf? lane).toList.map fun actor => some (tidyText actor) := by
    cases ha : actorOf? lane with
    | none =>
      rw [ha] at hd
      rw [forall₂_nil_right_iff.mp hd]
      rfl
    | some actor =>
      rw [ha] at hd
      obtain ⟨user, rest, hk, hr, hf⟩ := forall₂_cons_right_iff.mp hd
      have hc : user.content = [.text (tidyText actor)] := by
        have hk := hk.2
        generalize user.content = content at hk
        cases hk with
        | blank hb =>
          rw [(isLegibleText_iff.mp (h.actor actor ha)).2] at hb
          cases hb
        | leaf _ hr =>
          cases hr
          rfl
      rw [hf, forall₂_nil_right_iff.mp hr]
      simp [Element.text?, hc, leadingText?]
  rw [ht, he.1]
  rfl

theorem exists_actorMappings (h : ∀ lane ∈ lanesOf m, IsLegibleLane lane)
    (hu : isLegible (firstUser org)) : ∃ d, parse? (localConfiguration m org) = some d ∧
      actorMappings d = (lanesOf m).map (mappingOf tidyText) := by
  have hp := isPrintable_configurationSheet (Bool.and_eq_true_iff.mp hu).1 h
  obtain ⟨s, hs, hroot, htidy⟩ := hp.exists_tidy_by marking
  obtain ⟨d, hread, hkept⟩ := hs.parseChars_by marking
  refine ⟨d, ?_, ?_⟩
  · rw [localConfiguration_sheet hu h, htidy]
    exact (parse?_of_declaration hs.version s.standalone _).trans hread
  · rw [hroot] at hkept
    have hr : IsReadAs d.root (rootElement (firstUser org) (lanesOf m)) := (forall₂_cons.mp (isReadAs_elements hkept)).1
    have hd := isReadAs_descendants hr (.plain "actorMapping")
    rw [descendants_rootElement, forall₂_map_right_iff] at hd
    have hm := ((forall₂_and_left _ _).mpr ⟨h, hd.flip⟩).imp fun lane e hle => (mapping_eq hle.1 hle.2).symm
    have he := forall₂_map_left_iff.mpr (forall₂_map_right_iff.mpr hm)
    rw [forall₂_eq_eq_eq] at he
    exact he.symm

/-- The lanes come back in order, each with its name and, if it has an actor, with that as its user, but for blank
    lines. -/
theorem actorMappings_localConfiguration (m : Model) (org : Option Organization)
    (hl : ∀ lane ∈ lanesOf m, IsLegibleLane lane) (hu : isLegible (firstUser org) = true) :
    ∃ d, parse? (localConfiguration m org) = some d ∧
      actorMappings d = (lanesOf m).map (mappingOf tidyText) ∧
      ((∀ lane ∈ lanesOf m, ∀ actor, actorOf? lane = some actor → '\n' ∉ actor.toList) →
        actorMappings d = (lanesOf m).map (mappingOf id)) := by
  obtain ⟨d, hread, hmap⟩ := exists_actorMappings hl hu
  refine ⟨d, hread, hmap, fun hone => hmap.trans (map_congr_left fun lane hm => ?_)⟩
  refine congrArg (Prod.mk _) (map_congr_left fun actor ha => ?_)
  rw [tidyText, tidy_of_not_mem (hone lane hm actor (Option.mem_toList.mp ha)), String.ofList_toList]
  rfl

def modelOf (name actor : String) : Model :=
  { processes := [{ id := "p", laneSet := some { lanes := [{ id := "a", name := some name, actor := some actor }] } }] }

theorem isLegibleLane_modelOf {name actor : String} (hn : isLegible name) (ha : isLegibleText actor) :
    ∀ lane ∈ lanesOf (modelOf name actor), IsLegibleLane lane := by
  refine forall_mem_singleton.mpr ⟨hn, fun s hs => ?_⟩
  obtain ⟨hs, -⟩ := Option.filter_eq_some_iff.mp hs
  exact Option.some.inj hs ▸ ha

theorem actorMappings_markedLane : ∃ d, parse? (localConfiguration (modelOf "R&D <\"'>" "O'Neil") none) = some d ∧
    actorMappings d = [(some "R&D <\"'>", [some "O'Neil"])] := by
  obtain ⟨d, hread, hmap, -⟩ := actorMappings_localConfiguration (modelOf "R&D <\"'>" "O'Neil") none
    (isLegibleLane_modelOf (by decide) (by decide)) (by decide)
  exact ⟨d, hread, hmap.trans (by decide)⟩

theorem actorMappings_blankLine : ∃ d, parse? (localConfiguration (modelOf "A" "a\n\nb") none) = some d ∧
    actorMappings d = [(some "A", [some "a\nb"])] ∧ actorMappings d ≠ [(some "A", [some "a\n\nb"])] := by
  obtain ⟨d, hread, hmap⟩ := @exists_actorMappings (modelOf "A" "a\n\nb") none
    (isLegibleLane_modelOf (by decide) (by decide)) (by decide)
  have hb : actorMappings d = [(some "A", [some "a\nb"])] := hmap.trans (by decide)
  exact ⟨d, hread, hb, hb ▸ by decide⟩

end ProcessForge.Bonita
