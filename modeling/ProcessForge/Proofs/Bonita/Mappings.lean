import ProcessForge.Bonita.LocalConfiguration
import ProcessForge.Proofs.Text.BlankLines

/-! Which connectors a configuration knows. An entry maps a definition and its version to an implementation. Names of
    users and lanes are escaped, so that none of them can bring an entry along, and every configuration has the two
    entries of its template. -/

namespace ProcessForge.Bonita

open Text List
open String (ofList toList_ofList toList_append join toList_join)

variable {cs ds : List Char}

/-! ### Entries -/

/-- What stands in front of the definition in an entry. -/
def entryMark : String := "<definitionMappings type=\"CONNECTOR\" definitionId=\""

/-- The entry with which a text begins: the definition and the version that it maps. -/
def entryAt? (cs : List Char) : Option (String × String) := do
  let rest ← Text.dropPrefix? entryMark.toList cs
  let id := rest.takeWhile (· != '"')
  let rest ← Text.dropPrefix? "\" definitionVersion=\"".toList (rest.drop id.length)
  return (ofList id, ofList (rest.takeWhile (· != '"')))

/-- The entries of a text from left to right. -/
def entriesOf : List Char → List (String × String)
  | [] => []
  | c :: rest => (entryAt? (c :: rest)).toList ++ entriesOf rest

/-- Definitions with their versions that a configuration maps. -/
def mappingsOf (configuration : String) : List (String × String) := entriesOf configuration.toList

/-! ### Texts without entries -/

/-- Whether every sign that opens a tag is followed by a character with which no entry goes on. -/
def isTame : List Char → Bool
  | [] => true
  | c :: rest => (c != '<' || rest.head?.any (· != 'd')) && isTame rest

theorem isTame_cons {c : Char} : isTame (c :: cs) ↔ (c = '<' → cs.head?.any (· != 'd')) ∧ isTame cs := by
  rw [isTame, Bool.and_eq_true, Bool.or_eq_true, bne_iff_ne, imp_iff_not_or]

theorem isTame_append (hcs : isTame cs) (hd : isTame ds) : isTame (cs ++ ds) := by
  induction cs with
  | nil => exact hd
  | cons c cs ih =>
    obtain ⟨hc, hr⟩ := isTame_cons.mp hcs
    refine isTame_cons.mpr ⟨fun ho => ?_, ih hr⟩
    cases cs with
    | nil => cases hc ho
    | cons d cs => exact hc ho

theorem isTame_flatMap {α : Type} {f : α → List Char} {xs : List α} (h : ∀ x ∈ xs, isTame (f x)) :
    isTame (xs.flatMap f) := by
  induction xs with
  | nil => rfl
  | cons x xs ih =>
    rw [forall_mem_cons] at h
    exact isTame_append h.1 (ih h.2)

theorem isTame_of_not_mem (h : '<' ∉ cs) : isTame cs := by
  induction cs with
  | nil => rfl
  | cons c cs ih =>
    rw [mem_cons, not_or] at h
    exact isTame_cons.mpr ⟨fun ho => absurd ho.symm h.1, ih h.2⟩

theorem isTame_of_append (h : isTame (cs ++ ds)) : isTame ds := by
  induction cs with
  | nil => exact h
  | cons c cs ih => exact ih (isTame_cons.mp h).2

theorem isTame_line {l : List Char} (h : isTame (cs ++ l ++ ds)) : isTame (l ++ ['\n']) := by
  rw [append_assoc] at h
  replace h := isTame_of_append h
  induction l with
  | nil => decide
  | cons c l ih =>
    obtain ⟨hc, hr⟩ := isTame_cons.mp h
    refine isTame_cons.mpr ⟨fun ho => ?_, ih hr⟩
    cases l with
    | nil => decide
    | cons d l => exact hc ho

theorem isTame_ended_inkedLines (h : isTame cs) : isTame (ended (inkedLines cs)) := by
  refine isTame_flatMap fun l hl => ?_
  obtain ⟨pre, post, heq⟩ := infix_of_mem_lines (mem_filter.mp hl).1
  exact isTame_line (heq ▸ h)

theorem entryAt?_eq_none {c : Char} (h : c = '<' → cs.head?.any (· != 'd')) : entryAt? (c :: cs) = none := by
  have hm : entryMark.toList = '<' :: 'd' :: entryMark.toList.drop 2 := by
    rw [entryMark, toList_ofList]
    rfl
  have hp : Text.dropPrefix? entryMark.toList (c :: cs) = none := by
    refine Option.eq_none_iff_forall_ne_some.mpr fun tl hr => ?_
    have heq := eq_append_of_dropPrefix? hr
    rw [hm] at heq
    obtain ⟨rfl, rfl⟩ := cons.inj heq
    exact absurd (h rfl) Bool.false_ne_true
  rw [entryAt?, hp]
  rfl

theorem entriesOf_append (h : isTame cs) (ds : List Char) : entriesOf (cs ++ ds) = entriesOf ds := by
  induction cs with
  | nil => rfl
  | cons c cs ih =>
    obtain ⟨hc, hr⟩ := isTame_cons.mp h
    rw [cons_append, entriesOf, entryAt?_eq_none, ih hr]
    · rfl
    · intro ho
      cases cs with
      | nil => cases hc ho
      | cons d cs => exact hc ho

/-! ### What a configuration maps -/

theorem not_mem_escapeMark (c : Char) : '<' ∉ escapeMark c := by
  unfold escapeMark
  split
  · decide
  · decide
  · decide
  · decide
  · decide
  · next ho _ _ _ => exact fun hm => ho (mem_singleton.mp hm).symm

theorem isTame_escapeMarks (s : String) : isTame (escapeMarks s).toList := by
  refine isTame_of_not_mem fun hm => ?_
  rw [escapeMarks, toList_ofList, mem_flatMap] at hm
  obtain ⟨c, -, hc⟩ := hm
  exact not_mem_escapeMark c hc

theorem isTame_ofList (h : isTame cs) : isTame (ofList cs).toList := by
  rwa [toList_ofList]

theorem isTame_laneMapping (l : Lane) : isTame (laneMapping l).toList := by
  unfold laneMapping
  simp only [toList_append]
  refine isTame_append (isTame_append (isTame_append (isTame_append (isTame_append ?_ (isTame_escapeMarks _)) ?_) ?_)
    ?_) ?_
  · exact isTame_ofList (by decide)
  · exact isTame_ofList (by decide)
  · exact isTame_ofList (by decide +kernel)
  · split
    · simp only [toList_append]
      refine isTame_append (isTame_append ?_ (isTame_escapeMarks _)) ?_
      · exact isTame_ofList (by decide)
      · exact isTame_ofList (by decide)
    · exact isTame_ofList (by decide)
  · exact isTame_ofList (by decide)

/-- The part of a configuration in front of its connectors, up to its last tag. -/
def actorPart (m : Model) (organization : Option Organization) : String :=
  "<?xml version=\"1.0\" encoding=\"UTF-8\"?>\n" ++ "<configuration:Configuration xmlns:configuration=\""
    ++ "http://www.bonitasoft.org/ns/bpm/configuration\" name=\"Local\" version=\"9\" username=\""
    ++ escapeMarks (firstUser organization) ++ "\">\n"
    ++ "  <actorMappings>\n"
    ++ join ((m.processes.flatMap Process.lanes).map laneMapping)

/-- The part of a configuration behind the users of its lanes. -/
def connectorPart : String := definitionMapping "email" "1.2.0" Defaults.emailVersion
    ++ definitionMapping "rest-post" Defaults.restVersion Defaults.restVersion
    ++ dependencies "email" Defaults.emailVersion emailFiles
    ++ dependencies "rest-post" Defaults.restVersion callFiles
    ++ "  <processDependencies id=\"ACTOR_FILTER\"/>\n"
    ++ "  <processDependencies id=\"OTHER\"/>\n"
    ++ "</configuration:Configuration>\n"

theorem entries_connectorPart : inkedLines connectorPart.toList ≠ [] ∧
    entriesOf (ended (inkedLines connectorPart.toList))
      = [("email", "1.2.0"), ("rest-post", Defaults.restVersion)] := by
  obtain ⟨cs, hc⟩ : ∃ cs, connectorPart.toList = cs := ⟨_, rfl⟩
  rw [hc]
  unfold connectorPart definitionMapping dependencies emailFiles callFiles Defaults.emailVersion Defaults.restVersion
    at hc
  simp only [toList_append, toList_join, map_cons, map_nil, flatMap_cons, flatMap_nil] at hc
  unfold dependency at hc
  simp only [toList_append] at hc
  repeat rw [toList_ofList] at hc
  rw [← hc]
  decide +kernel

theorem isTame_actorPart (m : Model) (org : Option Organization) : isTame (actorPart m org).toList := by
  unfold actorPart
  simp only [toList_append, toList_join, flatMap_map]
  refine isTame_append (isTame_append (isTame_append (isTame_append (isTame_append (isTame_append ?_ ?_) ?_)
    (isTame_escapeMarks _)) ?_) ?_) ?_
  · exact isTame_ofList (by decide)
  · exact isTame_ofList (by decide)
  · exact isTame_ofList (by decide +kernel)
  · exact isTame_ofList (by decide)
  · exact isTame_ofList (by decide)
  · exact isTame_flatMap fun l _ => isTame_laneMapping l

theorem localConfiguration_eq (m : Model) (org : Option Organization) :
    localConfiguration m org = dropBlankLines (ofList
      ((actorPart m org).toList ++ "  </actorMappings".toList ++ '>' :: '\n' :: connectorPart.toList)) := by
  have hc : "  </actorMappings>\n".toList = "  </actorMappings".toList ++ ['>', '\n'] := by decide +kernel
  have ht : localConfiguration m org = dropBlankLines (actorPart m org ++ "  </actorMappings>\n" ++ connectorPart) := by
    unfold localConfiguration actorPart connectorPart
    simp [String.append_assoc]
  have hch : (actorPart m org ++ "  </actorMappings>\n" ++ connectorPart).toList
      = (actorPart m org).toList ++ "  </actorMappings".toList ++ '>' :: '\n' :: connectorPart.toList := by
    rw [toList_append, toList_append, hc, append_assoc, append_assoc, append_assoc]
    rfl
  rw [ht, ← hch, String.ofList_toList]

/-- A configuration maps two definitions, whatever model and organization it is made for. -/
theorem mappingsOf_localConfiguration (m : Model) (org : Option Organization) :
    mappingsOf (localConfiguration m org) = [("email", "1.2.0"), ("rest-post", Defaults.restVersion)] := by
  have ht : isTame ((actorPart m org).toList ++ "  </actorMappings".toList ++ ['>', '\n']) :=
    isTame_append (isTame_append (isTame_actorPart m org) (isTame_ofList (by decide))) (by decide)
  obtain ⟨hin, he⟩ := entries_connectorPart
  rw [mappingsOf, localConfiguration_eq, toList_dropBlankLines_append (by decide) _ hin,
    entriesOf_append (isTame_ended_inkedLines ht), toList_dropBlankLines hin, he]

end ProcessForge.Bonita
