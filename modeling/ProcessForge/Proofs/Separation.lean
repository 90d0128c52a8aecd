import ProcessForge.Proofs.Enrichment.Visibility
import ProcessForge.Proofs.FileTree
import ProcessForge.Proofs.Reports

/-! Separation of the targets. Two model directories may differ in what is meant for the other engine: in vendor
    attributes, and for Camunda also in the mail server, the diagram, the forms and the classes. Main statement: if
    both of them compile for an engine, its files are the same. -/

namespace ProcessForge.Compilation

open Xml FileTree List OrderedMap Enrichment
open Except (ok.inj)

variable {ending name model output : String} {c : Configuration} {files : Artifacts} {as : OrderedMap Json}

/-! ### Reading is blind -/

theorem isBlind_readConfiguration (t : FileTree) (d : List String) : IsBlind (readConfiguration t d) := by
  unfold readConfiguration
  dsimp only
  split
  · exact .bind (.ofExcept _) fun _ => .ofExcept _
  · exact .bind (isBlind_note _) fun _ => .pure _

theorem isBlind_readOrganization (t : FileTree) (d : List String) : IsBlind (readOrganization t d) := by
  unfold readOrganization
  dsimp only
  split
  · exact .bind (.ofExcept _) fun _ => .bind (isBlind_note _) fun _ => .pure _
  · exact .pure _

theorem isBlind_readClasses (t : FileTree) (d : List String) : IsBlind (readClasses t d) := by
  unfold readClasses
  dsimp only
  split
  · refine .bind (.ofExcept _) fun _ => .bind (.ofExcept _) fun _ => .bind (.ofExcept _) fun _ => ?_
    exact .bind (isBlind_note _) fun _ => .pure _
  · exact .pure _

theorem isBlind_readFormIndex (t : FileTree) (d : List String) : IsBlind (readFormIndex t d) := by
  unfold readFormIndex
  dsimp only
  split
  · refine .bind (.ofExcept _) fun tx => ?_
    split
    · exact .pure _
    · exact .throw _
    · exact .throw _
  · exact .pure _

/-! ### What was read -/

/-- Where everything in the sources and the skeleton comes from. -/
structure IsRead (target : String) (t : FileTree) (directory : List String) (shown : String) (s : Sources)
    (skeleton : Skeleton) (file : String) (document : Document) : Prop where
  first : firstWith? t directory ".bpmn" = some file
  parsed : readDocument t (directory ++ [file]) = .ok document
  model : Model.ofDocument document = .ok s.model
  config : Returns (readConfiguration t directory) s.config
  organization : Returns (readOrganization t directory) s.organization
  classes : Returns (readClasses t directory) s.classes
  formIndex : Returns (readFormIndex t directory) s.formIndex
  skeleton : Returns (if isBonita target then readDiagram t directory shown else pure ⟨file, document⟩) skeleton
  decisions : readTexts t (directory ++ ["dmn"]) ".dmn" = .ok s.decisions
  calls : readTexts t (directory ++ ["rest"]) ".json" = .ok s.calls
  emails : readTexts t (directory ++ ["email"]) ".json" = .ok s.emails
  templates : readTexts t (directory ++ ["email"]) ".ftl" = .ok s.templates

variable {target tgt model' output' : String} {t t' : FileTree} {s : Sources} {files' : Artifacts}

theorem exists_isRead {d : List String} {shown : String}
    {skeleton : Skeleton} (h : Returns (readSources tgt t d shown) (s, skeleton)) :
    ∃ file document, IsRead tgt t d shown s skeleton file document := by
  obtain ⟨-, -, h⟩ := h.of_bind
  cases hf : firstWith? t d ".bpmn" with
  | none =>
    rw [hf] at h
    obtain ⟨_, _, h⟩ := h
    cases h
  | some file =>
    rw [hf] at h
    obtain ⟨document, hdo, h⟩ := h.of_bind
    obtain ⟨model, hm, h⟩ := h.of_bind
    obtain ⟨-, -, h⟩ := h.of_bind
    obtain ⟨config, hco, h⟩ := h.of_bind
    obtain ⟨organization, ho, h⟩ := h.of_bind
    obtain ⟨classes, hc, h⟩ := h.of_bind
    obtain ⟨formIndex, hfo, h⟩ := h.of_bind
    obtain ⟨k, hk, h⟩ := h.of_ite_bind
    obtain ⟨decisions, hd, h⟩ := h.of_bind
    obtain ⟨calls, hca, h⟩ := h.of_bind
    obtain ⟨emails, he, h⟩ := h.of_bind
    obtain ⟨templates, ht, h⟩ := h.of_bind
    obtain ⟨rfl, rfl⟩ := Prod.mk.inj h.of_pure
    exact ⟨file, document, {
      first := hf, parsed := hdo.of_ofExcept, model := hm.of_ofExcept, config := hco
      organization := ho, classes := hc, formIndex := hfo, skeleton := hk
      decisions := hd.of_ofExcept, calls := hca.of_ofExcept, emails := he.of_ofExcept
      templates := ht.of_ofExcept }⟩

/-! ### Reading from directories that agree -/

section Agreement

variable {t t' : FileTree} {p path' d directory' d' : List String}

theorem readDocument_congr (h : AgreeAt t t' p path') : readDocument t p = readDocument t' path' := by
  simp [readDocument, h.bytes]

theorem firstWith?_congr (h : ∀ name, name.endsWith ending → AgreeAt t t' (d ++ [name]) (d' ++ [name])) :
    firstWith? t d ending = firstWith? t' d' ending := by
  rw [firstWith?, firstWith?, ← head?_filter, ← head?_filter, filter_names_eq h]

theorem readTexts_congr (h : ∀ name, AgreeAt t t' (d ++ [name]) (d' ++ [name])) (ending : String) :
    readTexts t d ending = readTexts t' d' ending := by
  have hb : ∀ name, t.bytes? (d ++ [name]) = t'.bytes? (d' ++ [name]) := fun name => (h name).bytes
  have ht : ∀ name, t.text (d ++ [name]) = t'.text (d' ++ [name]) := fun name => (h name).text
  simp only [readTexts, hb, ht]
  rw [filter_names_eq fun name _ => h name]

theorem readOrganization_congr (h : AgreeAt t t' (d ++ ["organization.archimate"])
    (directory' ++ ["organization.archimate"])) : readOrganization t d = readOrganization t' directory' := by
  simp [readOrganization, h.isPresent, readDocument_congr h]

theorem readClasses_congr (h : AgreeAt t t' (d ++ ["class-model.puml"]) (directory' ++ ["class-model.puml"])) :
    readClasses t d = readClasses t' directory' := by
  simp [readClasses, h.isPresent, h.text]

theorem readFormIndex_congr (h : AgreeAt t t' (d ++ ["forms", "index.json"]) (directory' ++ ["forms", "index.json"])) :
    readFormIndex t d = readFormIndex t' directory' := by
  simp [readFormIndex, h.isPresent, h.text]

theorem endsWith_of_firstWith? {file : String} (h : firstWith? t d ending = some file) :
    file.endsWith ending := find?_some (p := fun name : String => name.endsWith ending) h

/-- The diagram is the first one of its directory; how the directory is shown matters for failures only. -/
theorem readDiagram_unique (h : ∀ name, name.endsWith ".proc" → AgreeAt t t' (d ++ [name]) (d' ++ [name]))
    {shown shown' : String} {k k' : Skeleton} (hk : Returns (readDiagram t d shown) k)
    (hk' : Returns (readDiagram t' d' shown') k') : k = k' := by
  unfold readDiagram at hk hk'
  rw [← firstWith?_congr h] at hk'
  cases hf : firstWith? t d ".proc" with
  | none =>
    rw [hf] at hk
    obtain ⟨_, _, hk⟩ := hk
    cases hk
  | some file =>
    rw [hf] at hk hk'
    dsimp only at hk hk'
    rw [← readDocument_congr (h file (endsWith_of_firstWith? hf))] at hk'
    exact Returns.unique (.bind (.ofExcept _) fun _ => .pure _) hk hk'

end Agreement

/-! ### What the targets do not look at -/

/-- What of a configuration counts for Camunda: no mail server and no attributes for other engines. -/
def seenByCamunda (c : Configuration) : Configuration := { c.keep (isFor "camunda") with mailServer := none }

/-- What of a configuration counts for Bonita: no attributes for other engines. -/
def seenByBonita (c : Configuration) : Configuration := c.keep (isFor "bonita")

/-- Whether a path in a model directory is that of the configuration. -/
def isConfiguration (path : List String) : Bool := path == ["config.json"]

/-- Whether a path in a model directory is for the configuration or for Bonita only: a diagram, classes or forms. -/
def isForeignToCamunda (path : List String) : Bool :=
  isConfiguration path || path == ["class-model.puml"] || path == ["forms"] || path == ["forms", "index.json"]
    || (path.length == 1 && path.any fun name => name.endsWith ".proc")

theorem endsWith_iff : name.endsWith ending ↔ ending.toList <:+ name.toList := by
  rw [← String.endsWith_toSlice, String.Slice.endsWith_string_iff, String.copy_toSlice]

theorem isForeignToCamunda_name (hp : ¬ ".proc".toList <:+ name.toList)
    (hn : name ∉ ["config.json", "class-model.puml", "forms"]) : isForeignToCamunda [name] = false := by
  have he : name.endsWith ".proc" = false := by rwa [Bool.eq_false_iff, Ne, endsWith_iff]
  simp only [mem_cons, not_mem_nil, or_false, not_or] at hn
  simp [isForeignToCamunda, isConfiguration, he, hn]

theorem isForeignToCamunda_of_bpmn (h : name.endsWith ".bpmn") : isForeignToCamunda [name] = false := by
  rw [endsWith_iff] at h
  refine isForeignToCamunda_name (fun hp => ?_) fun hn => ?_
  · -- endings of the same length are the same
    exact absurd (suffix_of_suffix_length_le h hp (by decide)) (by decide)
  · simp only [mem_cons, not_mem_nil, or_false] at hn
    rcases hn with rfl | rfl | rfl <;> exact absurd h (by decide)

theorem isConfiguration_of_proc (h : name.endsWith ".proc") : isConfiguration [name] = false := by
  rw [endsWith_iff] at h
  rw [isConfiguration, beq_eq_false_iff_ne]
  rintro heq
  obtain rfl := head_eq_of_cons_eq heq
  exact absurd h (by decide)

theorem isForeignToCamunda_organization : isForeignToCamunda ["organization.archimate"] = false :=
  isForeignToCamunda_name (by decide) (by decide)

/-! ### Two model directories -/

/-- The text of a decision file of a model directory, with the global variables put in. -/
def IsDecision (t : FileTree) (directory : List String) (text : String) : Prop :=
  ∃ config texts, (readConfiguration t directory).run.1 = .ok config ∧
    readTexts t (directory ++ ["dmn"]) ".dmn" = .ok texts ∧ text ∈ (substituteInFiles config.globals texts).values

/-- A decision that is the path of a file leads to the same document in two trees. In one tree it always does. -/
def SamePaths (t t' : FileTree) (directory : List String) : Prop :=
  ∀ text, IsDecision t directory text → parseSource? t.opened? text = parseSource? t'.opened? text

/-- Two model directories that differ for Camunda in nothing that counts. -/
structure SameForCamunda (t t' : FileTree) (directory directory' : List String) : Prop where
  files : AgreeBelow t t' directory directory' isForeignToCamunda
  config : (readConfiguration t directory).run.1.map seenByCamunda =
    (readConfiguration t' directory').run.1.map seenByCamunda
  paths : SamePaths t t' directory

/-- Two model directories that differ for Bonita in nothing that counts. -/
structure SameForBonita (t t' : FileTree) (directory directory' : List String) : Prop where
  files : AgreeBelow t t' directory directory' isConfiguration
  config : (readConfiguration t directory).run.1.map seenByBonita =
    (readConfiguration t' directory').run.1.map seenByBonita
  paths : SamePaths t t' directory

section Comparison

variable {target tgt shown shown' file file' : String} {t t' : FileTree} {d d' : List String}
  {s s' e : Sources} {k k' : Skeleton} {document doc document' : Document}

theorem agreeBelow_of_isConfiguration (h : AgreeBelow t t' d d' isConfiguration) :
    AgreeBelow t t' d d' isForeignToCamunda := by
  intro p hp
  refine h p ?_
  simp only [isForeignToCamunda, Bool.or_eq_false_iff] at hp
  exact hp.1.1.1.1

/-- What every target reads is the same, but for the configuration, the classes and the forms. -/
theorem IsRead.common (h : AgreeBelow t t' d d' isForeignToCamunda) (hs : IsRead target t d shown s k file document)
    (hs' : IsRead target t' d' shown' s' k' file' document') : file = file' ∧ document = document' ∧
      s' = { s with config := s'.config, classes := s'.classes, formIndex := s'.formIndex } := by
  have hb : ∀ name, name.endsWith ".bpmn" → AgreeAt t t' (d ++ [name]) (d' ++ [name]) :=
    fun name hn => h [name] (isForeignToCamunda_of_bpmn hn)
  have ht : ∀ p ending, p ≠ "forms" → readTexts t (d ++ [p]) ending = readTexts t' (d' ++ [p]) ending := by
    intro p ending hp
    refine readTexts_congr (fun name => ?_) ending
    simp only [append_assoc, singleton_append]
    exact h [p, name] (by simp [isForeignToCamunda, isConfiguration, hp])
  obtain rfl : file = file' := by
    have hf := hs.first.symm.trans ((firstWith?_congr hb).trans hs'.first)
    exact Option.some.inj hf
  obtain rfl : document = document' := by
    have ha := readDocument_congr (hb file (endsWith_of_firstWith? hs.first))
    exact ok.inj (hs.parsed.symm.trans (ha.trans hs'.parsed))
  have hm : s.model = s'.model := ok.inj (hs.model.symm.trans hs'.model)
  have ho : s.organization = s'.organization := by
    have ha := hs'.organization
    rw [← readOrganization_congr (h _ isForeignToCamunda_organization)] at ha
    exact Returns.unique (isBlind_readOrganization t d) hs.organization ha
  have hd : s.decisions = s'.decisions :=
    ok.inj (hs.decisions.symm.trans ((ht "dmn" _ (by decide)).trans hs'.decisions))
  have hc : s.calls = s'.calls := ok.inj (hs.calls.symm.trans ((ht "rest" _ (by decide)).trans hs'.calls))
  have he : s.emails = s'.emails := ok.inj (hs.emails.symm.trans ((ht "email" _ (by decide)).trans hs'.emails))
  have hte : s.templates = s'.templates :=
    ok.inj (hs.templates.symm.trans ((ht "email" _ (by decide)).trans hs'.templates))
  rw [hm, ho, hd, hc, he, hte]
  exact ⟨rfl, rfl, rfl⟩

theorem seen_eq {seen : Configuration → Configuration}
    (h : (readConfiguration t d).run.1.map seen = (readConfiguration t' d').run.1.map seen)
    (hs : Returns (readConfiguration t d) s.config)
    (hs' : Returns (readConfiguration t' d') s'.config) : seen s.config = seen s'.config := by
  rw [hs.run_eq (isBlind_readConfiguration t d), hs'.run_eq (isBlind_readConfiguration t' d')] at h
  exact ok.inj h

def enriched (engine : String) (s : Sources) : Sources :=
  { s with
    model := enrich engine s.config s.organization s.model
    decisions := substituteInFiles s.config.globals s.decisions
    calls := substituteInFiles s.config.globals s.calls
    emails := substituteInFiles s.config.globals s.emails }

theorem enriched_config (engine : String) (s : Sources) : (enriched engine s).config = s.config := by
  simp [enriched]

theorem enriched_templates (engine : String) (s : Sources) : (enriched engine s).templates = s.templates := by
  simp [enriched]

theorem eq_enriched {engine : String} (h : Returns (s.enrich engine) e) : e = enriched engine s := by
  obtain ⟨-, -, h⟩ := h.of_bind
  obtain ⟨-, -, h⟩ := h.of_bind
  exact h.of_pure.symm

theorem enriched_congr {engine : String} {c' : Configuration}
    (h : { c.keep (isFor engine) with mailServer := none } = { c'.keep (isFor engine) with mailServer := none })
    (s : Sources) :
    enriched engine { s with config := c' } = { enriched engine { s with config := c } with config := c' } := by
  have hg : c'.globals = c.globals := (congrArg Configuration.globals h).symm
  have he : enrich engine c' s.organization s.model = enrich engine c s.organization s.model := by
    rw [← enrich_keep engine c', ← enrich_keep engine c]
    exact (congrArg (fun c => enrich engine c s.organization s.model) h).symm
  simp [enriched, hg, he]

end Comparison

/-! ### The files of an engine -/

/-- A model directory compiles for a target and gives files. -/
def Compiles (target model output : String) (t : FileTree) (files : Artifacts) : Prop :=
  ∃ after, (compile target model output t).run.1 = .ok (files, after)

theorem run_changing (change : FileTree → Except Failure FileTree) (w : World) : ExceptT.run (changing change) w =
    match change w.files with
    | .ok files => (.ok (), { w with files := files })
    | .error failure => (.error failure, w) := rfl

/-- What all stages do: the files are exported if they can be prepared. -/
theorem run_workflow (tgt model output : String) (w : World) : ExceptT.run (workflow tgt model output) w =
    match ExceptT.run (prepare tgt (modelOf model) w.files) w.notices with
    | (.error failure, notices) => (.error failure, { w with notices := notices })
    | (.ok artifacts, notices) =>
      let outcome := ExceptT.run (exportFiles tgt (outputOf output) artifacts) { w with notices := notices }
      (outcome.1.map fun _ => artifacts, outcome.2) := by
  rw [workflow, run_bind]
  have hr : ExceptT.run (reading (prepare tgt (modelOf model))) w =
    ((ExceptT.run (prepare tgt (modelOf model) w.files) w.notices).1,
      { w with notices := (ExceptT.run (prepare tgt (modelOf model) w.files) w.notices).2 }) := rfl
  rw [hr]
  rcases ExceptT.run (prepare tgt (modelOf model) w.files) w.notices with ⟨_ | as, n⟩
  · rfl
  · dsimp only
    show ExceptT.run (exportFiles tgt (outputOf output) as >>= fun _ => pure as) { w with notices := n } = _
    rw [run_bind]
    rcases ExceptT.run (exportFiles tgt (outputOf output) as) { w with notices := n } with ⟨_ | _, _⟩ <;> rfl

theorem run_reading_ok {α : Type} {stage : FileTree → Work α} {w w' : World} {a : α}
    (h : ExceptT.run (reading stage) w = (.ok a, w')) :
    ∃ n, ExceptT.run (stage w.files) w.notices = (.ok a, n) ∧ w' = { w with notices := n } := by
  obtain ⟨hr, rfl⟩ := Prod.mk.inj h
  exact ⟨_, Prod.ext hr rfl, rfl⟩

theorem run_workflow_ok {w w' : World} (h : ExceptT.run (workflow tgt model output) w = (.ok files, w')) :
    ∃ n, ExceptT.run (prepare tgt (modelOf model) w.files) w.notices = (.ok files, n) ∧
      ExceptT.run (exportFiles tgt (outputOf output) files) { w with notices := n } = (.ok (), w') := by
  obtain ⟨as, w₁, hp, h⟩ := run_bind_ok h
  obtain ⟨_, w₂, he, h⟩ := run_bind_ok h
  cases h
  obtain ⟨n, hr, rfl⟩ := run_reading_ok hp
  exact ⟨n, hr, he⟩

theorem run_compile (tgt model output : String) (t : FileTree) : (compile tgt model output t).run.1 =
    (ExceptT.run (workflow tgt model output) ⟨t, []⟩).1.map
      fun artifacts => (artifacts, (ExceptT.run (workflow tgt model output) ⟨t, []⟩).2.files) := rfl

theorem exists_emit_of_prepare {n n' : List Notice} (h : ExceptT.run (prepare tgt model t) n = (.ok files, n')) :
    ∃ s k file doc m, IsRead tgt t (pathOf model) (showPath model) s k file doc ∧
      ExceptT.run (emit tgt k (enriched tgt s) t.opened?) m = (.ok files, n') := by
  obtain ⟨⟨s, k⟩, n₁, hr, h⟩ := run_bind_ok h
  obtain ⟨file, doc, hs⟩ := exists_isRead ⟨n, n₁, hr⟩
  obtain ⟨e, n₂, he, h⟩ := run_bind_ok h
  obtain rfl := eq_enriched ⟨n₁, n₂, he⟩
  exact ⟨s, k, file, doc, n₂, hs, h⟩

theorem exists_emit (h : Compiles tgt model output t files) :
    ∃ s k file doc, IsRead tgt t (pathOf (modelOf model)) (showPath (modelOf model)) s k file doc ∧
      Returns (emit tgt k (enriched tgt s) t.opened?) files := by
  obtain ⟨a, h⟩ := h
  rw [run_compile, run_workflow] at h
  rcases hp : ExceptT.run (prepare tgt (modelOf model) t) [] with ⟨_ | as, n⟩
  · rw [hp] at h
    cases h
  · obtain ⟨s, k, file, doc, m, hs, he⟩ := exists_emit_of_prepare hp
    simp only [hp] at h
    cases hx : (ExceptT.run (exportFiles tgt (outputOf output) as) ⟨t, n⟩).1 with
    | error f =>
      rw [hx] at h
      cases h
    | ok =>
      rw [hx] at h
      cases h
      exact ⟨s, k, file, doc, hs, m, n, he⟩

/-- Decisions that are read alike give the same files. -/
theorem decisionFiles_congr {dialect : Dialect} {o o' : String → Option ByteArray} : ∀ {fs : OrderedMap String},
    (∀ x ∈ fs, parseSource? o x.2 = parseSource? o' x.2) → Decision.files dialect fs o = Decision.files dialect fs o'
  | [], _ => rfl
  | (file, text) :: fs, h => by
    obtain ⟨hx, hf⟩ := forall_mem_cons.mp h
    rw [Decision.files, Decision.files, hx, decisionFiles_congr hf]

theorem IsRead.sources_eq {d : List String} {shown file engine : String} {k : Skeleton} {doc : Document}
    (hs : IsRead tgt t d shown s k file doc) (h : SamePaths t t' d) :
    ∀ x ∈ (enriched engine s).decisions, parseSource? t.opened? x.2 = parseSource? t'.opened? x.2 := by
  intro x hx
  refine h x.2 ⟨s.config, s.decisions, hs.config.run_eq (isBlind_readConfiguration t d), hs.decisions, ?_⟩
  exact mem_map_of_mem hx

theorem bonita_artifacts_congr {as : String → Bool} (h : s.config.keep as = c.keep as)
    (file : String) (f : Nat) (skeleton : Document) (o : String → Option ByteArray) :
    Bonita.artifacts file f skeleton { s with config := c } o = Bonita.artifacts file f skeleton s o := by
  have hg : ∀ decisions services,
      Bonita.generate ⟨resolveFlows .bonita s.model, s.classes.getD {}, c, decisions, services, s.formIndex⟩ skeleton =
      Bonita.generate ⟨resolveFlows .bonita s.model, s.classes.getD {}, s.config, decisions, services,
        s.formIndex⟩ skeleton := by
    intro decisions services
    rw [← Bonita.generate_keep as, ← Bonita.generate_keep as ⟨_, _, s.config, _, _, _⟩]
    rw [h]
  simp [Bonita.artifacts, Bonita.content, hg]

/-- The files for Camunda do not show the raw configuration, the classes and the forms. -/
theorem camunda_artifacts_congr (file : String) (sk : Document) (s : Sources) (config : Configuration)
    (classes : Option ClassModel) (formIndex : Json) (o : String → Option ByteArray) :
    Camunda.artifacts file sk { s with config := config, classes := classes, formIndex := formIndex } o =
      Camunda.artifacts file sk s o := rfl

theorem camunda_files_eq
    (hsa : SameForCamunda t t' (pathOf (modelOf model)) (pathOf (modelOf model')))
    (h : Compiles "camunda" model output t files)
    (h' : Compiles "camunda" model' output' t' files') : files = files' := by
  have ht : isBonita "camunda" = false := by decide
  obtain ⟨s, k, file, doc, hs, hem⟩ := exists_emit h
  obtain ⟨s', k', file', document', hs', he'⟩ := exists_emit h'
  have hse := seen_eq hsa.config hs.config hs'.config
  obtain ⟨rfl, rfl, heq⟩ := hs.common hsa.files hs'
  have hk := hs.skeleton
  have hk' := hs'.skeleton
  obtain rfl := hk.of_pure
  obtain rfl := hk'.of_pure
  have he : enriched "camunda" s' = { enriched "camunda" s with
      config := s'.config, classes := s'.classes, formIndex := s'.formIndex } := by
    rw [heq]
    exact enriched_congr hse { s with classes := s'.classes, formIndex := s'.formIndex }
  simp only [emit, ht, Bool.false_eq_true, if_false] at hem he'
  rw [he, camunda_artifacts_congr] at he'
  have ho : Camunda.artifacts file doc (enriched "camunda" s) t.opened? =
      Camunda.artifacts file doc (enriched "camunda" s) t'.opened? := by
    simp only [Camunda.artifacts, decisionFiles_congr (hs.sources_eq hsa.paths)]
  rw [← ho] at he'
  exact Returns.unique (Camunda.isBlind_artifacts file doc _ _) hem he'

theorem bonita_files_eq
    (hsa : SameForBonita t t' (pathOf (modelOf model)) (pathOf (modelOf model')))
    (h : Compiles "bonita" model output t files)
    (h' : Compiles "bonita" model' output' t' files') : files = files' := by
  have ht : isBonita "bonita" := by decide
  obtain ⟨s, k, file, doc, hs, hem⟩ := exists_emit h
  obtain ⟨s', k', file', document', hs', he'⟩ := exists_emit h'
  have hf := hsa.files
  have hse := seen_eq hsa.config hs.config hs'.config
  obtain ⟨rfl, rfl, heq⟩ := hs.common (agreeBelow_of_isConfiguration hf) hs'
  have hk := hs.skeleton
  have hk' := hs'.skeleton
  obtain rfl := readDiagram_unique (fun name hn => hf [name] (isConfiguration_of_proc hn)) hk hk'
  have hc : s.classes = s'.classes := by
    have ha := hs'.classes
    rw [← readClasses_congr (hf _ (by decide))] at ha
    exact Returns.unique (isBlind_readClasses _ _) hs.classes ha
  have hfo : s.formIndex = s'.formIndex := by
    have ha := hs'.formIndex
    rw [← readFormIndex_congr (hf _ (by decide))] at ha
    exact Returns.unique (isBlind_readFormIndex _ _) hs.formIndex ha
  have he : enriched "bonita" s' = { enriched "bonita" s with config := s'.config } := by
    rw [← hc, ← hfo] at heq
    rw [heq]
    exact enriched_congr (congrArg (fun c => { c with mailServer := none }) hse) s
  simp only [emit, ht, if_true] at hem he'
  rw [← enriched_config "bonita"] at hse
  rw [he, bonita_artifacts_congr hse] at he'
  have ho : ∀ file f, Bonita.artifacts file f k.document (enriched "bonita" s) t.opened? =
      Bonita.artifacts file f k.document (enriched "bonita" s) t'.opened? := by
    simp only [Bonita.artifacts, Bonita.content, decisionFiles_congr (hs.sources_eq hsa.paths), forall_const]
  rw [← ho] at he'
  exact Returns.unique (Bonita.isBlind_artifacts _ _ _ _ _) hem he'

section Sample

open ProcessForge.Configuration

def mixedFile : String :=
  "\x7b\"processes\":[\x7b\"id\":\"p\",\"config\":\x7b\"lanes\":[\x7b\"name\":\"A\",\"vendorSpecificAttributes\":\x7b\"camunda:x\":\"1\",\"bonita:y\":\"\"\x7d\x7d]\x7d\x7d]\x7d"

def camundaFile : String :=
  "\x7b\"processes\":[\x7b\"id\":\"p\",\"config\":\x7b\"lanes\":[\x7b\"name\":\"A\",\"vendorSpecificAttributes\":\x7b\"camunda:x\":\"1\"\x7d\x7d]\x7d\x7d]\x7d"

def bonitaFile : String :=
  "\x7b\"processes\":[\x7b\"id\":\"p\",\"config\":\x7b\"lanes\":[\x7b\"name\":\"A\",\"vendorSpecificAttributes\":\x7b\"bonita:y\":\"\"\x7d\x7d]\x7d\x7d]\x7d"

def laneJson (attributes : OrderedMap Json) : Json :=
  .obj [("processes", .arr [.obj [("id", .str "p"), ("config", .obj [("lanes", .arr [
    .obj [("name", .str "A"), ("vendorSpecificAttributes", .obj attributes)]])])]])]

def laneConfiguration (attributes : OrderedMap Json) : Configuration :=
  { processes := [{ id := "p", setting := { lanes := [{ name := "A", vendorAttributes := attributes }] } }] }

theorem readLaneSetting_lane (as : OrderedMap Json) :
    readLaneSetting (.obj [("name", .str "A"), ("vendorSpecificAttributes", .obj as)]) =
      .fine { name := "A", vendorAttributes := as } := by
  rfl

theorem ofText_lane {file : String} (h : Json.parse file = .ok (laneJson as)) :
    ofText file = .ok (laneConfiguration as) := by
  simp only [ofText, h]
  simp [laneJson, laneConfiguration, ofJson, check, readRecord, Configuration.optional, field?, value?,
    readList, readItems, readEntry, readProcessSetting, readLaneSetting_lane, requiredText, optionalText, readText,
    Checked.below, Checked.fine]

def laneProcess : String :=
  "<definitions xmlns=\"http://www.omg.org/spec/BPMN/20100524/MODEL\"><process id=\"p\"><laneSet id=\"s\"><lane id=\"l\" name=\"A\"/></laneSet></process></definitions>"

def poolDiagram : String := "<r xmlns:x=\"http://www.omg.org/XMI\"><elements x:type=\"process:Pool\" x:id=\"p\"/></r>"

def laneTree (config diagram : String) : FileTree := [(["m", "config.json"], .file config.toUTF8),
  (["m", "p.bpmn"], .file laneProcess.toUTF8),
  (["m", "p.proc"], .file diagram.toUTF8)]

theorem pathOf_m : pathOf (modelOf "m") = ["m"] := by rfl

theorem names_laneTree (cfg diagram : String) :
    (laneTree cfg diagram).names ["m"] = ["config.json", "p.bpmn", "p.proc"] := by
  have hs : mergeSort ["config.json", "p.bpmn", "p.proc"] (fun a b => !decide (b < a)) =
      ["config.json", "p.bpmn", "p.proc"] := mergeSort_of_pairwise (by decide)
  show sortedNames ["config.json", "p.bpmn", "p.proc"] = _
  rw [sortedNames, hs]
  rfl

theorem firstWith?_laneTree (cfg diagram : String) : firstWith? (laneTree cfg diagram) ["m"] ".bpmn" = some "p.bpmn" ∧
      firstWith? (laneTree cfg diagram) ["m"] ".proc" = some "p.proc" := by
  rw [firstWith?, firstWith?, names_laneTree]
  decide +kernel

theorem readConfiguration_laneTree {cfg : String} (hr : '\r' ∉ cfg.toList)
    (h : Json.parse cfg = .ok (laneJson as)) (diagram : String) :
    readConfiguration (laneTree cfg diagram) ["m"] = Work.ofExcept (.ok (laneConfiguration as)) := by
  have hb : (laneTree cfg diagram).bytes? (["m"] ++ ["config.json"]) = some cfg.toUTF8 := rfl
  have hp : (laneTree cfg diagram).isPresent (["m"] ++ ["config.json"]) := by
    rw [isPresent, hb, Option.isSome_some, Bool.true_or]
  simp only [readConfiguration, hp, if_true, text_of_bytes hb hr, ← ofText_lane h]
  rfl

theorem parse_files : Json.parse mixedFile = .ok (laneJson [("camunda:x", .str "1"), ("bonita:y", .str "")]) ∧
    Json.parse camundaFile = .ok (laneJson [("camunda:x", .str "1")]) ∧
    Json.parse bonitaFile = .ok (laneJson [("bonita:y", .str "")]) := by
  simp [mixedFile, camundaFile, bonitaFile, Json.parse, Json.readValue, Json.readMembers, Json.readItems,
    Json.readString, Json.skipSpace, Json.isSpace, bind, Except.bind, pure, Except.pure]
  simp [ofList, putAll, put, laneJson]

theorem readConfiguration_mixed (diagram : String) : readConfiguration (laneTree mixedFile diagram) ["m"] =
    Work.ofExcept (.ok (laneConfiguration [("camunda:x", .str "1"), ("bonita:y", .str "")])) :=
  readConfiguration_laneTree (by simp [mixedFile]) parse_files.1 diagram

theorem readConfiguration_camunda (diagram : String) : readConfiguration (laneTree camundaFile diagram) ["m"] =
    Work.ofExcept (.ok (laneConfiguration [("camunda:x", .str "1")])) :=
  readConfiguration_laneTree (by simp [camundaFile]) parse_files.2.1 diagram

theorem readConfiguration_bonita (diagram : String) : readConfiguration (laneTree bonitaFile diagram) ["m"] =
    Work.ofExcept (.ok (laneConfiguration [("bonita:y", .str "")])) :=
  readConfiguration_laneTree (by simp [bonitaFile]) parse_files.2.2 diagram

theorem agreeAt_laneTree {cfg config' diagram diagram' : String} {p : List String}
    (hc : p ≠ ["config.json"]) (hd : diagram = diagram' ∨ p ≠ ["p.proc"]) :
    AgreeAt (laneTree cfg diagram) (laneTree config' diagram') (["m"] ++ p) (["m"] ++ p) := by
  refine ⟨?_, rfl⟩
  rcases hd with rfl | hd
  · simp [laneTree, bytes?, findSome?_cons, hc.symm]
  · simp [laneTree, bytes?, findSome?_cons, hc.symm, hd.symm]

theorem samePaths_laneTree (cfg diagram : String) (t : FileTree) : SamePaths (laneTree cfg diagram) t ["m"] := by
  rintro text ⟨c, texts, -, hr, hm⟩
  have hn : (laneTree cfg diagram).names (["m"] ++ ["dmn"]) = [] := by
    show sortedNames [] = []
    simp [sortedNames, eraseReps, eraseRepsBy]
  rw [readTexts, hn] at hr
  cases hr
  cases hm

theorem sameForCamunda_laneTree :
    SameForCamunda (laneTree camundaFile "") (laneTree mixedFile poolDiagram) (pathOf (modelOf "m"))
      (pathOf (modelOf "m")) := by
  rw [pathOf_m]
  refine ⟨fun p hp => agreeAt_laneTree ?_ (.inr ?_), ?_, samePaths_laneTree _ _ _⟩
  · rintro rfl
    simp [isForeignToCamunda, isConfiguration] at hp
  · rintro rfl
    have hpr : "p.proc".endsWith ".proc" := endsWith_iff.2 (by decide)
    simp [isForeignToCamunda, hpr] at hp
  · rw [readConfiguration_camunda, readConfiguration_mixed]
    rfl

theorem sameForBonita_laneTree :
    SameForBonita (laneTree mixedFile poolDiagram) (laneTree bonitaFile poolDiagram) (pathOf (modelOf "m"))
      (pathOf (modelOf "m")) := by
  rw [pathOf_m]
  refine ⟨fun p hp => agreeAt_laneTree ?_ (.inl rfl), ?_, samePaths_laneTree _ _ _⟩
  · rintro rfl
    simp [isConfiguration] at hp
  · rw [readConfiguration_mixed, readConfiguration_bonita]
    rfl

theorem compiles_laneTree : (compile "camunda" "m" "out" (laneTree camundaFile "")).run.1.isOk ∧
      (compile "camunda" "m" "out" (laneTree mixedFile poolDiagram)).run.1.isOk ∧
      (compile "bonita" "m" "out" (laneTree mixedFile poolDiagram)).run.1.isOk ∧
      (compile "bonita" "m" "out" (laneTree bonitaFile poolDiagram)).run.1.isOk := by
  simp only [run_compile, run_workflow]
  unfold prepare readSources readDiagram
  simp only [pathOf_m, (firstWith?_laneTree _ _).1, (firstWith?_laneTree _ _).2, readConfiguration_mixed,
    readConfiguration_camunda, readConfiguration_bonita]
  decide +kernel

theorem exists_compiles {tgt : String} {t : FileTree} (h : (compile tgt model output t).run.1.isOk) :
    ∃ files, Compiles tgt model output t files := by
  cases hr : (compile tgt model output t).run.1 with
  | error f =>
    rw [hr] at h
    cases h
  | ok r => exact ⟨r.1, r.2, hr⟩

end Sample

end ProcessForge.Compilation
