import ProcessForge.CommandLine
import ProcessForge.Proofs.Failing
import ProcessForge.Proofs.Limits
import ProcessForge.Proofs.Process.Reading

/-! What a run writes. One that fails before its files are exported writes no file. One that ends well writes its
    files, each with its own content, and changes no other file. For Camunda there is a file for every input that can
    be read, and every other input is named in a warning. -/

namespace ProcessForge.Compilation

open Xml FileTree List OrderedMap Text

variable {s : Sources} {p : String → Prop}

/-! ### Kinds of input files -/

/-- An input file of a directory: its name has an ending, in any letter case, and it holds a text. -/
structure IsInput (t : FileTree) (directory : List String) (ending name text : String) : Prop where
  ending : lower (endingOf name) = ending
  text : t.text (directory ++ [name]) = .ok text

/-- A kind of input files: where they are, how their names end, what is substituted in their texts, which texts can
    be read, what becomes of those, and what is reported of the others. -/
structure InputKind where
  folder : String
  ending : String
  prepare : OrderedMap String → String → String
  isReadable : String → Bool
  content? : String → Option String
  report : String → Notice
  isSome_content? : ∀ text, (content? text).isSome = isReadable text
  names_file : ∀ name, ∃ what, (report name).text = "   ⚠️ " ++ what ++ " '" ++ name ++ "'"

def descriptorContent? (text : String) : Option String := do
  let v ← (Json.parse text).toOption
  let w ← (Descriptor.resolve .camunda v).toOption
  return w.render .indented

theorem isSome_descriptorContent? (tx : String) : (descriptorContent? tx).isSome = (Json.parse tx).isOk := by
  unfold descriptorContent?
  cases Json.parse tx with
  | error fault => rfl
  | ok v =>
    -- for Camunda no body is opened
    have hr : ErrorsOnly (fun _ => False) (Descriptor.resolve .camunda v) :=
      Descriptor.errorsOnly_resolve (fun _ _ => .ok _) v
    cases hw : Descriptor.resolve .camunda v with
    | error f => exact (hr f hw).elim
    | ok w => simp [Except.toOption, hw, Except.isOk, Except.toBool]

def descriptors (folder : String) : InputKind where
  folder := folder
  ending := ".json"
  prepare := Expression.substituteGlobalsInFile
  isReadable text := (Json.parse text).isOk
  content? := descriptorContent?
  report := .unreadableDescriptor
  isSome_content? := isSome_descriptorContent?
  names_file _ := ⟨"Error processing JSON content for", rfl⟩

/-- Templates of e-mails. They are taken over as they are. -/
def templates : InputKind where
  folder := "email"
  ending := ".ftl"
  prepare _ text := text
  isReadable _ := true
  content? := some
  report := .unreadableDescriptor
  isSome_content? _ := rfl
  names_file _ := ⟨"Error processing JSON content for", rfl⟩

def decisions (dialect : Dialect) (opened? : String → Option ByteArray) : InputKind where
  folder := "dmn"
  ending := ".dmn"
  prepare := Expression.substituteGlobalsInFile
  isReadable text := (parseSource? opened? text).isSome
  content? text := (parseSource? opened? text).map fun d => (Decision.document dialect d).render
  report := .unreadableDecision
  isSome_content? _ := Option.isSome_map
  names_file _ := ⟨"Error processing DMN content for", rfl⟩

/-- What is exported for Camunda besides the process document. -/
def camundaKinds (opened? : String → Option ByteArray) : List InputKind :=
  [descriptors "rest", descriptors "email", templates, decisions .camunda opened?]

/-! ### Reading inputs -/

variable {t : FileTree} {dir : List String} {files fs : Artifacts} {name : String} {notices ns : List Notice}

section Reading

variable {t : FileTree} {dir : List String} {ending : String} {files fs : OrderedMap String}

theorem isSome_of_text {pa : List String} {tx : String} (h : t.text pa = .ok tx) : (t.bytes? pa).isSome := by
  rw [FileTree.text] at h
  cases hb : t.bytes? pa with
  | some bytes => rfl
  | none =>
    rw [hb] at h
    cases h

theorem readAll_ok : ∀ {ns : List String} {fs : OrderedMap String}, (ns.mapM fun name => do
      let c ← t.text (dir ++ [name])
      return (name, c)) = Except.ok fs →
    fs.keys = ns ∧ ∀ x ∈ fs, t.text (dir ++ [x.1]) = .ok x.2
  | [], fs, h => by
    cases h
    exact ⟨rfl, forall_mem_nil _⟩
  | name :: ns, fs, h => by
    rw [mapM_cons] at h
    obtain ⟨x, he, h⟩ := Process.exists_of_bind_ok h
    obtain ⟨c, hte, hp⟩ := Process.exists_of_bind_ok he
    obtain ⟨tl, hr, h⟩ := Process.exists_of_bind_ok h
    cases hp
    cases h
    obtain ⟨hk, ht⟩ := readAll_ok hr
    exact ⟨congrArg (name :: ·) hk, forall_mem_cons.mpr ⟨hte, ht⟩⟩

theorem nodup_readTexts (h : readTexts t dir ending = .ok files) : files.keys.Nodup := by
  obtain ⟨hk, -⟩ := readAll_ok h
  rw [hk]
  refine ((sortedNames_spec _).1.imp fun hl heq => ?_).filter _
  exact Std.lt_irrefl (heq ▸ hl)

theorem mem_readTexts (h : readTexts t dir ending = .ok files) {name text : String} :
    (name, text) ∈ files ↔ IsInput t dir ending name text := by
  obtain ⟨hk, ht⟩ := readAll_ok h
  constructor
  · intro hm
    have hn : name ∈ files.keys := mem_map_of_mem hm
    rw [hk, mem_filter, Bool.and_eq_true, beq_iff_eq] at hn
    exact ⟨hn.2.1, ht _ hm⟩
  · intro hin
    have hs := isSome_of_text hin.text
    have hn : name ∈ files.keys := by
      rw [hk, mem_filter, Bool.and_eq_true, beq_iff_eq, mem_names, isPresent, hs]
      exact ⟨Bool.true_or _, hin.ending, rfl⟩
    obtain ⟨⟨name', text'⟩, hm, rfl⟩ := mem_map.mp hn
    have heq := (ht _ hm).symm.trans hin.text
    cases heq
    exact hm

end Reading

/-! ### Sifting inputs -/

/-- Files of a kind are sifted: those that can be read are converted under their names, the others are reported. -/
structure Sifted (kind : InputKind) (files out : OrderedMap String) (notices : List Notice) : Prop where
  kept : out = files.filterMap fun entry => (kind.content? entry.2).map (Prod.mk entry.1)
  reported : ∀ entry ∈ files, kind.isReadable entry.2 = false → kind.report entry.1 ∈ notices

section Sifting

variable {k : InputKind} {files fs out : OrderedMap String} {notices ns notices' ns' : List Notice}
  {name text tx : String}

theorem Sifted.mono (h : Sifted k files out ns) (hm : ns ⊆ notices') : Sifted k files out notices' :=
  ⟨h.kept, fun x he hu => hm (h.reported x he hu)⟩

theorem Sifted.keep (h : Sifted k files out notices) {c : String} (hc : k.content? tx = some c) :
    Sifted k ((name, tx) :: files) ((name, c) :: out) notices := by
  refine ⟨?_, forall_mem_cons.mpr ⟨fun hu => ?_, h.reported⟩⟩
  · rw [filterMap_cons, hc, h.kept]
    rfl
  · rw [← k.isSome_content?, hc] at hu
    cases hu

theorem Sifted.leave (h : Sifted k files out notices) (hu : k.isReadable tx = false)
    (hr : k.report name ∈ notices) : Sifted k ((name, tx) :: files) out notices := by
  refine ⟨?_, forall_mem_cons.mpr ⟨fun _ => hr, h.reported⟩⟩
  rw [← k.isSome_content?, Option.isSome_eq_false_iff, Option.isNone_iff_eq_none] at hu
  rw [filterMap_cons, hu, h.kept]
  rfl

theorem run_ofExcept_ok {σ α : Type} {r : Except Failure α} {s s' : σ} {a : α}
    (h : (Work.ofExcept r : WorkOn σ α).run s = (.ok a, s')) : r = .ok a ∧ s' = s := by
  cases r with
  | error f => cases h
  | ok b =>
    cases h
    exact ⟨rfl, rfl⟩

theorem subset_of_note {notice : Notice} {u : Unit}
    (h : ExceptT.run (Work.note notice) ns = (.ok u, notices')) : ns ⊆ notices' := by
  cases h
  exact subset_append_left ..

theorem sifted_resolveFiles (folder : String) : ∀ {fs out : OrderedMap String} {ns ns' : List Notice},
    ExceptT.run (Descriptor.resolveFiles .camunda fs) ns = (.ok out, ns') →
    Sifted (descriptors folder) fs out ns' ∧ ns ⊆ ns'
  | [], out, ns, ns', h => by
    cases h
    exact ⟨⟨rfl, forall_mem_nil _⟩, List.Subset.refl _⟩
  | (name, tx) :: fs, out, ns, ns', h => by
    rw [Descriptor.resolveFiles, Descriptor.changeFiles] at h
    split at h
    · next hp =>
      obtain ⟨_, n, hn, hr⟩ := run_bind_ok h
      cases hn
      obtain ⟨hs, hm⟩ := sifted_resolveFiles folder hr
      have hu : (descriptors folder).isReadable tx = false := by
        simp only [descriptors, hp]
        rfl
      refine ⟨hs.leave hu (hm ?_), List.Subset.trans (subset_append_left ..) hm⟩
      exact mem_append_right _ (mem_singleton_self _)
    · cases h
    · next v hp =>
      obtain ⟨w, n, hc, ha⟩ := run_bind_ok h
      obtain ⟨hre, rfl⟩ := run_ofExcept_ok hc
      obtain ⟨tl, n', hr, hpu⟩ := run_bind_ok ha
      cases hpu
      obtain ⟨hs, hm⟩ := sifted_resolveFiles folder hr
      refine ⟨hs.keep ?_, hm⟩
      simp [descriptors, descriptorContent?, hp, hre, Except.toOption]

theorem sifted_decisions (dialect : Dialect) (o : String → Option ByteArray) :
    ∀ {fs out : OrderedMap String} {ns ns' : List Notice},
    ExceptT.run (Decision.files dialect fs o) ns = (.ok out, ns') →
    Sifted (decisions dialect o) fs out ns' ∧ ns ⊆ ns'
  | [], out, ns, ns', h => by
    cases h
    exact ⟨⟨rfl, forall_mem_nil _⟩, List.Subset.refl _⟩
  | (name, tx) :: fs, out, ns, ns', h => by
    rw [Decision.files] at h
    split at h
    · next hp =>
      obtain ⟨_, n, hn, hr⟩ := run_bind_ok h
      cases hn
      obtain ⟨hs, hm⟩ := sifted_decisions dialect o hr
      have hu : (decisions dialect o).isReadable tx = false := by
        simp only [decisions, hp]
        rfl
      refine ⟨hs.leave hu (hm ?_), List.Subset.trans (subset_append_left ..) hm⟩
      exact mem_append_right _ (mem_singleton_self _)
    · next d hp =>
      obtain ⟨tl, n', hr, hpu⟩ := run_bind_ok h
      cases hpu
      obtain ⟨hs, hm⟩ := sifted_decisions dialect o hr
      refine ⟨hs.keep ?_, hm⟩
      simp [decisions, hp]

theorem sifted_templates (fs : OrderedMap String) (notices : List Notice) : Sifted templates fs fs notices := by
  refine ⟨?_, nofun⟩
  exact (filterMap_some).symm

end Sifting

/-! ### Files of a kind -/

abbrev InputKind.IsInput (kind : InputKind) (t : FileTree) (directory : List String) (name text : String) : Prop :=
  Compilation.IsInput t (directory ++ [kind.folder]) kind.ending name text

/-- Files of a kind: one for each input that can be read. -/
structure IsOutput (t : FileTree) (directory : List String) (globals : OrderedMap String) (kind : InputKind)
    (out : OrderedMap String) : Prop where
  nodup : out.keys.Nodup
  mem_iff : ∀ name content, (name, content) ∈ out ↔
    ∃ text, kind.IsInput t directory name text ∧ kind.content? (kind.prepare globals text) = some content

section Output

variable {t : FileTree} {dir : List String} {globals : OrderedMap String} {k : InputKind}
  {texts out : OrderedMap String} {notices ns : List Notice}

theorem isOutput_of_sifted (hr : readTexts t (dir ++ [k.folder]) k.ending = .ok texts)
    (h : Sifted k (texts.mapValues (k.prepare globals)) out ns) : IsOutput t dir globals k out := by
  have hk : out = texts.filterMap fun x =>
      (k.content? (k.prepare globals x.2)).map (Prod.mk x.1) := by
    rw [h.kept, mapValues, filterMap_map]
    rfl
  refine ⟨?_, fun name c => ?_⟩
  · refine (nodup_readTexts hr).sublist ?_
    rw [hk]
    clear hr h hk
    induction texts with
    | nil => exact Sublist.refl _
    | cons x texts ih =>
      rw [filterMap_cons]
      cases k.content? (k.prepare globals x.2) with
      | none => exact ih.cons _
      | some c => exact ih.cons_cons _
  · rw [hk, mem_filterMap]
    constructor
    · rintro ⟨⟨name', tx⟩, hm, heq⟩
      obtain ⟨c', hc, heq⟩ := Option.map_eq_some_iff.mp heq
      cases heq
      exact ⟨tx, (mem_readTexts hr).mp hm, hc⟩
    · rintro ⟨tx, hin, hc⟩
      refine ⟨(name, tx), (mem_readTexts hr).mpr hin, ?_⟩
      rw [hc]
      rfl

variable {name text tx : String} {notices' ns' : List Notice}

theorem reported_of_sifted (hr : readTexts t (dir ++ [k.folder]) k.ending = .ok texts)
    (h : Sifted k (texts.mapValues (k.prepare globals)) out notices)
    (hin : k.IsInput t dir name tx) (hu : k.isReadable (k.prepare globals tx) = false) :
    k.report name ∈ notices := by
  have hm : (name, k.prepare globals tx) ∈ texts.mapValues (k.prepare globals) :=
    mem_map.mpr ⟨(name, tx), (mem_readTexts hr).mpr hin, rfl⟩
  exact h.reported _ hm hu

theorem IsInput.isFileName (ht : HasFileNames t) {ending : String}
    (h : IsInput t dir ending name text) : IsFileName name := by
  have hp : t.isPresent (dir ++ [name]) := by rw [isPresent, isSome_of_text h.text, Bool.true_or]
  exact ht.isFileName hp

/-! ### All files for Camunda -/

def placed (part : InputKind × OrderedMap String) : Artifacts :=
  part.2.map fun entry => (part.1.folder ++ "/" ++ entry.1, entry.2)

variable {file main : String} {parts : List (InputKind × OrderedMap String)}

/-- If no two kinds have both their folder and their ending in common, no two files have the same path. -/
theorem nodup_paths (out : List String) (ht : HasFileNames t) (hfi : IsFileName file)
    (hf : ∀ pt ∈ parts, IsFileName pt.1.folder)
    (hk : parts.Pairwise fun pt part' => (pt.1.folder, pt.1.ending) ≠ (part'.1.folder, part'.1.ending))
    (hpa : ∀ pt ∈ parts, IsOutput t dir globals pt.1 pt.2) :
    (((file, main) :: parts.flatMap placed).map fun x => follow out x.1).Nodup := by
  have hin : ∀ pt ∈ parts, ∀ name ∈ pt.2.keys, ∃ text, pt.1.IsInput t dir name text := by
    intro pt hp name hn
    obtain ⟨⟨name', c⟩, hm, rfl⟩ := mem_map.mp hn
    obtain ⟨text, hin, -⟩ := ((hpa pt hp).mem_iff _ _).mp hm
    exact ⟨text, hin⟩
  have hpat : (parts.flatMap placed).map (fun x => follow out x.1)
      = parts.flatMap fun pt => pt.2.keys.map fun name => out ++ [pt.1.folder, name] := by
    rw [map_flatMap]
    refine flatMap_congr fun pt hp => ?_
    rw [placed, OrderedMap.keys, map_map, map_map]
    refine map_congr_left fun x he => ?_
    obtain ⟨text, he⟩ := hin pt hp x.1 (mem_map_of_mem he)
    exact follow_child (hf pt hp) (he.isFileName ht) out
  rw [map_cons, hpat, follow_name hfi, nodup_cons, nodup_flatMap]
  refine ⟨fun hm => ?_, fun pt hp => ?_, hk.imp_of_mem fun hp hp' hne => ?_⟩
  · obtain ⟨pt, -, hm⟩ := mem_flatMap.mp hm
    obtain ⟨name, -, heq⟩ := mem_map.mp hm
    cases append_cancel_left heq
  · exact (hpa pt hp).nodup.map fun name name' heq => by cases append_cancel_left heq; rfl
  · intro pa hpath hpa'
    obtain ⟨name, hn, rfl⟩ := mem_map.mp hpath
    obtain ⟨name', hn', heq⟩ := mem_map.mp hpa'
    obtain ⟨text, hn⟩ := hin _ hp name hn
    obtain ⟨text', hn'⟩ := hin _ hp' name' hn'
    simp only [append_cancel_left_eq, cons.injEq, and_true] at heq
    obtain ⟨hfo, rfl⟩ := heq
    exact hne (Prod.ext hfo.symm (hn.ending.symm.trans hn'.ending))

theorem foldl_addAll : ∀ {parts : List (InputKind × OrderedMap String)} {fs : Artifacts},
    (OrderedMap.keys (fs ++ parts.flatMap placed)).Nodup →
    parts.foldl (fun fs part => Artifacts.addAll fs part.1.folder part.2) fs = fs ++ parts.flatMap placed
  | [], fs, _ => (append_nil fs).symm
  | part :: parts, fs, h => by
    rw [flatMap_cons, ← append_assoc] at h ⊢
    have hk : (OrderedMap.keys (fs ++ placed part) ++ OrderedMap.keys (parts.flatMap placed)).Nodup := by
      rw [OrderedMap.keys, map_append] at h
      exact h
    have hf : Artifacts.addAll fs part.1.folder part.2 = fs ++ placed part := putAll_eq_append hk.of_append_left
    rw [foldl_cons, hf, foldl_addAll h]

theorem camunda_artifacts_ok {sk : Document} {fs : Artifacts} {o : String → Option ByteArray}
    (h : ExceptT.run (Camunda.artifacts file sk s o) ns = (.ok fs, notices')) : ∃ main calls emails decided,
      fs = [(descriptors "rest", calls), (descriptors "email", emails), (templates, s.templates),
        (decisions .camunda o, decided)].foldl (fun fs pt => Artifacts.addAll fs pt.1.folder pt.2) [(file, main)] ∧
      Sifted (descriptors "rest") s.calls calls notices' ∧ Sifted (descriptors "email") s.emails emails notices' ∧
      Sifted (decisions .camunda o) s.decisions decided notices' := by
  obtain ⟨_, n₁, -, h₁⟩ := run_bind_ok h
  obtain ⟨main, n₂, -, h₂⟩ := run_bind_ok h₁
  obtain ⟨calls, n₃, hc, h₃⟩ := run_bind_ok h₂
  obtain ⟨emails, n₄, he, h₄⟩ := run_bind_ok h₃
  obtain ⟨decided, n₅, hd, h₅⟩ := run_bind_ok h₄
  obtain ⟨_, n₆, hn, hp⟩ := run_bind_ok h₅
  cases hp
  obtain ⟨hc, -⟩ := sifted_resolveFiles "rest" hc
  obtain ⟨he, hm⟩ := sifted_resolveFiles "email" he
  obtain ⟨hd, hm'⟩ := sifted_decisions .camunda o hd
  have hl := subset_of_note hn
  refine ⟨main, calls, emails, decided, rfl, ?_, ?_, hd.mono hl⟩
  · exact hc.mono (List.Subset.trans hm (List.Subset.trans hm' hl))
  · exact he.mono (List.Subset.trans hm' hl)

/-- What is exported for Camunda from a model directory: the process document, and a file for every other input that
    can be read. The log has the warnings about the other inputs. -/
structure IsCamundaExport (t : FileTree) (directory : List String) (globals : OrderedMap String) (file main : String)
    (artifacts : Artifacts) (log : List String) : Prop where
  nodup : artifacts.keys.Nodup
  mem_iff : ∀ entry, entry ∈ artifacts ↔ entry = (file, main) ∨ ∃ kind ∈ camundaKinds t.opened?, ∃ name text,
    kind.IsInput t directory name text ∧ kind.content? (kind.prepare globals text) = some entry.2 ∧
    entry.1 = kind.folder ++ "/" ++ name
  reported : ∀ kind ∈ camundaKinds t.opened?, ∀ name text, kind.IsInput t directory name text →
    kind.isReadable (kind.prepare globals text) = false → (kind.report name).lines <:+: log

theorem mem_placed {pt : InputKind × OrderedMap String} (h : IsOutput t dir globals pt.1 pt.2)
    {x : String × String} : x ∈ placed pt ↔ ∃ name tx, pt.1.IsInput t dir name tx ∧
      pt.1.content? (pt.1.prepare globals tx) = some x.2 ∧ x.1 = pt.1.folder ++ "/" ++ name := by
  rw [placed, mem_map]
  constructor
  · rintro ⟨⟨name, c⟩, hm, rfl⟩
    obtain ⟨tx, hin, hc⟩ := (h.mem_iff name c).mp hm
    exact ⟨name, tx, hin, hc, rfl⟩
  · rintro ⟨name, tx, hin, hc, hk⟩
    exact ⟨(name, x.2), (h.mem_iff name x.2).mpr ⟨tx, hin, hc⟩, Prod.ext hk.symm rfl⟩

theorem isCamundaExport {tgt shown : String} {sk : Skeleton} {d : Document} {as : Artifacts}
    (ht : HasFileNames t) (hr : IsRead tgt t dir shown s sk file d)
    (hru : ExceptT.run (Camunda.artifacts file d (enriched tgt s) t.opened?) ns = (.ok as, notices'))
    {log : List String} (hl : ∀ notice ∈ notices', notice.lines <:+: log) (out : List String) :
    ∃ main, IsCamundaExport t dir s.config.globals file main as log ∧ (as.map fun x => follow out x.1).Nodup := by
  obtain ⟨main, calls, emails, decided, hf, hc, hem, hd⟩ := camunda_artifacts_ok hru
  rw [enriched_templates] at hf
  have htem : Sifted templates (s.templates.mapValues (templates.prepare s.config.globals)) s.templates notices' := by
    have hsa : s.templates.mapValues (templates.prepare s.config.globals) = s.templates := map_id' s.templates
    rw [hsa]
    exact sifted_templates _ _
  generalize hpa : [(descriptors "rest", calls), (descriptors "email", emails),
    (templates, s.templates), (decisions .camunda t.opened?, decided)] = parts at hf
  have hki : parts.map Prod.fst = camundaKinds t.opened? := by rw [← hpa]; rfl
  have hs : ∀ pt ∈ parts, ∃ texts, readTexts t (dir ++ [pt.1.folder]) pt.1.ending = .ok texts ∧
      Sifted pt.1 (texts.mapValues (pt.1.prepare s.config.globals)) pt.2 notices' := by
    rw [← hpa]
    simp only [forall_mem_cons]
    exact ⟨⟨s.calls, hr.calls, hc⟩, ⟨s.emails, hr.emails, hem⟩,
      ⟨s.templates, hr.templates, htem⟩, ⟨s.decisions, hr.decisions, hd⟩, forall_mem_nil _⟩
  have ho : ∀ pt ∈ parts, IsOutput t dir s.config.globals pt.1 pt.2 := by
    intro pt hp
    obtain ⟨texts, hte, hp⟩ := hs pt hp
    exact isOutput_of_sifted hte hp
  have hfi : IsFileName file := ht.isFileName (mem_names.mp (mem_of_find?_eq_some hr.first))
  have hpat : (((file, main) :: parts.flatMap placed).map fun x => follow out x.1).Nodup := by
    refine nodup_paths out ht hfi ?_ ?_ ho
    · rw [← hpa]
      simp only [forall_mem_cons]
      have hd : IsFileName (decisions .camunda t.opened?).folder := show IsFileName "dmn" by decide
      exact ⟨by decide, by decide, by decide, hd, forall_mem_nil _⟩
    · have hpai : (camundaKinds t.opened?).Pairwise fun k kind' =>
          (k.folder, k.ending) ≠ (kind'.folder, kind'.ending) := by
        simp [camundaKinds, descriptors, templates, decisions]
      rw [← hki, pairwise_map] at hpai
      exact hpai
  have hke : (OrderedMap.keys ((file, main) :: parts.flatMap placed)).Nodup := by
    refine Nodup.of_map (follow out) ?_
    rw [OrderedMap.keys, map_map]
    exact hpat
  have ha : as = (file, main) :: parts.flatMap placed := hf.trans (foldl_addAll hke)
  rw [← ha] at hpat hke
  refine ⟨main, ⟨hke, fun x => ?_, ?_⟩, hpat⟩
  · rw [ha, mem_cons, mem_flatMap, ← hki]
    refine or_congr_right ?_
    constructor
    · rintro ⟨pt, hp, he⟩
      exact ⟨pt.1, mem_map_of_mem hp, (mem_placed (ho pt hp)).mp he⟩
    · rintro ⟨k, hk, he⟩
      obtain ⟨pt, hp, rfl⟩ := mem_map.mp hk
      exact ⟨pt, hp, (mem_placed (ho pt hp)).mpr he⟩
  · intro k hk name tx hin hu
    rw [← hki] at hk
    obtain ⟨pt, hp, rfl⟩ := mem_map.mp hk
    obtain ⟨texts, hte, hp⟩ := hs pt hp
    exact hl _ (reported_of_sifted hte hp hin hu)

end Output

/-! ### Paths of the files for Bonita -/

/-- Files without repeated names, all of which have a property. -/
structure Keyed (p : String → Prop) (files : Artifacts) : Prop where
  nodup : files.keys.Nodup
  all : ∀ key ∈ files.keys, p key

theorem Keyed.put (h : Keyed p fs) {key : String} (hke : p key) (c : String) : Keyed p (put fs key c) := by
  refine ⟨nodup_keys_put h.nodup, fun k hk => ?_⟩
  rcases mem_keys_put.mp hk with hk | rfl
  · exact h.all k hk
  · exact hke

theorem Keyed.addAll (h : Keyed p fs) {dir : String} {ms : OrderedMap String}
    (hm : ∀ name ∈ ms.keys, p (dir ++ "/" ++ name)) : Keyed p (fs.addAll dir ms) := by
  induction ms generalizing fs with
  | nil => exact h
  | cons x ms ih =>
    obtain ⟨he, hm⟩ := forall_mem_cons.mp hm
    exact ih (h.put he _) hm

/-- A name that is known from where it leads, which is not to a configuration. -/
structure IsTidy (key : String) (names : List String) : Prop where
  leads : ∀ directory, follow directory key = directory ++ names
  whole : "/".intercalate names = key
  other : ∃ name, names.getLast? = some name ∧ ¬ ".conf".toList <:+ name.toList

theorem isTidy_name (h : IsFileName name) (hn : ¬ ".conf".toList <:+ name.toList) : IsTidy name [name] :=
  ⟨follow_name h, rfl, name, rfl, hn⟩

theorem isTidy_child {folder : String} (hf : IsFileName folder) (h : IsFileName name)
    (hn : ¬ ".conf".toList <:+ name.toList) : IsTidy (folder ++ "/" ++ name) [folder, name] :=
  ⟨follow_child hf h, rfl, name, rfl, hn⟩

theorem nodup_paths_of_keyed {id : String} (out : List String)
    (h : Keyed (fun key => key = id ++ ".conf" ∨ ∃ names, IsTidy key names) fs) :
    (fs.map fun x => follow out x.1).Nodup := by
  have hc : ∀ {key : String} {names : List String}, IsTidy key names → follow out (id ++ ".conf") ≠ follow out key := by
    intro key names hk heq
    have hs : '/' ∉ ".conf".toList := by decide
    obtain ⟨name, hp, hn⟩ := follow_ending hs (by decide) out id
    obtain ⟨last, hl, ho⟩ := hk.other
    rw [heq, hk.leads, getLast?_append, hl, Option.some_or] at hp
    cases hp
    exact ho hn
  have hm : (fs.keys.map (follow out)).Nodup := by
    refine Nodup.map_on (fun key hk key' hkey' heq => ?_) h.nodup
    rcases h.all key hk with rfl | ⟨names, ht⟩
    · rcases h.all key' hkey' with rfl | ⟨names', ht'⟩
      · rfl
      · exact absurd heq (hc ht')
    · rcases h.all key' hkey' with rfl | ⟨names', ht'⟩
      · exact absurd heq.symm (hc ht)
      · rw [ht.leads, ht'.leads] at heq
        rw [← ht.whole, append_cancel_left heq, ht'.whole]
  rwa [OrderedMap.keys, map_map] at hm

theorem not_conf_of_ending (h : lower (endingOf name) = ".dmn") : ¬ ".conf".toList <:+ name.toList := by
  rintro ⟨b, heq⟩
  have ha : afterLast '.' name.toList = "conf".toList := by
    rw [← heq, afterLast, reverse_append]
    rfl
  have he : endingOf name = "" ∨ endingOf name = ".conf" := by
    rw [endingOf, ha]
    split
    · exact .inl rfl
    · exact .inr (by decide)
  rcases he with he | he <;> rw [he] at h <;> exact absurd h (by decide)

theorem not_conf_of_proc (h : name.endsWith ".proc") : ¬ ".conf".toList <:+ name.toList := by
  intro hc
  exact absurd (suffix_of_suffix_length_le (endsWith_iff.mp h) hc (by decide)) (by decide)

theorem bonita_nodup_paths {file : String} {f : Nat} {sk : Document} {o : String → Option ByteArray}
    (out : List String) (hfi : IsTidy file [file])
    (hde : ∀ name ∈ s.decisions.keys, IsTidy ("dmn" ++ "/" ++ name) ["dmn", name])
    (h : Returns (Bonita.artifacts file f sk s o) fs) : (fs.map fun x => follow out x.1).Nodup := by
  obtain ⟨-, -, h⟩ := h.of_bind
  obtain ⟨c, hc, h⟩ := h.of_bind
  obtain ⟨d, -, h⟩ := h.of_bind
  obtain ⟨configuration, hco, h⟩ := h.of_bind
  obtain ⟨files₁, ho, h⟩ := h.of_bind
  obtain ⟨files₂, hcl, h⟩ := h.of_bind
  obtain ⟨-, -, h⟩ := h.of_bind
  obtain rfl := h.of_pure
  obtain ⟨id, rfl⟩ : ∃ id, configuration = id ++ ".conf" := by
    have hf := hco.of_ofExcept
    unfold Bonita.configurationFile at hf
    split at hf
    · cases hf
      exact ⟨_, rfl⟩
    · cases hf
  have hd : ∀ name ∈ c.decisions.keys, IsTidy ("dmn" ++ "/" ++ name) ["dmn", name] := by
    obtain ⟨decided, ⟨n, n', hd⟩, hc⟩ := hc.of_bind
    obtain ⟨calls, -, hc⟩ := hc.of_bind
    obtain rfl := hc.of_pure
    intro name hn
    refine hde name ?_
    obtain ⟨x, he, rfl⟩ := mem_map.mp hn
    rw [(sifted_decisions .bonita o hd).1.kept] at he
    obtain ⟨source, hs, heq⟩ := mem_filterMap.mp he
    obtain ⟨ns, -, rfl⟩ := Option.map_eq_some_iff.mp heq
    exact mem_map.mpr ⟨source, hs, rfl⟩
  have hst : Keyed (fun key => key = id ++ ".conf" ∨ ∃ names, IsTidy key names) [(file, Bonita.diagramText f d)] :=
    ⟨nodup_singleton file, forall_mem_singleton.mpr (.inr ⟨_, hfi⟩)⟩
  have hf₁ : Keyed (fun key => key = id ++ ".conf" ∨ ∃ names, IsTidy key names) files₁ := by
    have hne := hst.put (.inl rfl) (Bonita.localConfiguration c.model s.organization)
    unfold Bonita.addOrganization at ho
    split at ho
    · obtain ⟨tx, -, hp⟩ := ho.of_bind
      obtain rfl := hp.of_pure
      exact hne.put (.inr ⟨_, isTidy_name (by decide) (by decide)⟩) tx
    · obtain ⟨-, -, hp⟩ := ho.of_bind
      obtain rfl := hp.of_pure
      exact hne
  have hf₂ : Keyed (fun key => key = id ++ ".conf" ∨ ∃ names, IsTidy key names) files₂ := by
    unfold Bonita.addBusinessModel at hcl
    split at hcl
    · obtain ⟨tx, -, hp⟩ := hcl.of_bind
      obtain rfl := hp.of_pure
      exact hf₁.put (.inr ⟨_, isTidy_name (by decide) (by decide)⟩) tx
    · obtain rfl := hcl.of_pure
      exact hf₁
  exact nodup_paths_of_keyed out (hf₂.addAll fun name hn => .inr ⟨_, hd name hn⟩)

/-! ### Writing -/

/-- Files with the same content as before, but for those that were written. -/
structure Exports (artifacts : Artifacts) (directory : List String) (before after : FileTree) : Prop where
  written : ∀ entry ∈ artifacts, after.bytes? (follow directory entry.1) = some entry.2.toUTF8
  others : ∀ path, (∀ entry ∈ artifacts, path ≠ follow directory entry.1) → after.bytes? path = before.bytes? path

section Writing

variable {as : Artifacts} {w w' : World} {pa : List String} {tgt output : String}

theorem run_saveAll_cons (dir : List String) (x : String × String) (as : Artifacts) (w : World) :
    ExceptT.run (saveAll dir (x :: as)) w =
      match w.files.save (follow dir x.1) x.2 with
      | .ok files => ExceptT.run (saveAll dir as) { w with files := files }
      | .error failure => (.error failure, w) := by
  have hs : saveAll dir (x :: as) = changing (fun t => t.save (follow dir x.1) x.2) >>= fun _ => saveAll dir as := by
    rw [saveAll, forM_eq_forM, forM_cons]
    rfl
  rw [hs, run_bind, run_changing]
  cases w.files.save (follow dir x.1) x.2 <;> rfl

/-- Whether or not all of them can be written, no other file changes. -/
theorem others_saveAll : ∀ {as : Artifacts} {w : World}, (∀ x ∈ as, pa ≠ follow dir x.1) →
    (ExceptT.run (saveAll dir as) w).2.files.bytes? pa = w.files.bytes? pa
  | [], _, _ => rfl
  | x :: as, w, h => by
    obtain ⟨hx, h⟩ := forall_mem_cons.mp h
    rw [run_saveAll_cons]
    cases hs : w.files.save (follow dir x.1) x.2 with
    | error f => rfl
    | ok files =>
      show (ExceptT.run (saveAll dir as) { w with files := files }).2.files.bytes? pa = _
      rw [others_saveAll h, bytes?_of_save hs, if_neg hx]

theorem exports_saveAll : ∀ {as : Artifacts} {w w' : World}, (as.map fun x => follow dir x.1).Nodup →
    ExceptT.run (saveAll dir as) w = (.ok (), w') → Exports as dir w.files w'.files ∧ w'.notices = w.notices
  | [], w, w', _, h => by
    cases h
    exact ⟨⟨forall_mem_nil _, fun _ _ => rfl⟩, rfl⟩
  | (name, c) :: tl, w, w', hd, h => by
    obtain ⟨hn, hr⟩ := nodup_cons.mp hd
    rw [run_saveAll_cons] at h
    cases hs : w.files.save (follow dir name) c with
    | error f =>
      simp only [hs] at h
      cases h
    | ok files =>
      simp only [hs] at h
      obtain ⟨ih, hno⟩ := exports_saveAll hr h
      refine ⟨⟨forall_mem_cons.mpr ⟨?_, ih.written⟩, fun pa hp => ?_⟩, hno⟩
      · rw [ih.others, bytes?_of_save hs, if_pos rfl]
        intro x he heq
        exact hn (mem_map.mpr ⟨x, he, heq.symm⟩)
      · obtain ⟨hne, ho⟩ := forall_mem_cons.mp hp
        rw [ih.others pa ho, bytes?_of_save hs, if_neg hne]

theorem keeps_bind {σ α β γ : Type} {f : σ → γ} {x : WorkOn σ α} {g : α → WorkOn σ β}
    (hx : ∀ s, f (x.run s).2 = f s) (hg : ∀ a s, f ((g a).run s).2 = f s) (s : σ) : f ((x >>= g).run s).2 = f s := by
  rw [run_bind]
  cases (x.run s).1 with
  | error failure => exact hx s
  | ok a => exact (hg a _).trans (hx s)

theorem others_exportFiles (tgt : String) (h : ∀ x ∈ as, pa ≠ follow (pathOf output) x.1) (w : World) :
    (ExceptT.run (exportFiles tgt output as) w).2.files.bytes? pa = w.files.bytes? pa := by
  have hm : ∀ w : World, (ExceptT.run (changing fun t => t.makeDirectory (pathOf output)) w).2.files.bytes? pa
      = w.files.bytes? pa := by
    intro w
    rw [run_changing]
    cases hc : w.files.makeDirectory (pathOf output) with
    | error f => rfl
    | ok files =>
      show files.bytes? pa = _
      rw [eq_of_makeDirectory hc, bytes?_addDirectory]
  refine keeps_bind (f := fun w : World => w.files.bytes? pa) (fun _ => rfl) (fun _ => ?_) w
  refine keeps_bind (f := fun w : World => w.files.bytes? pa) hm fun _ => ?_
  exact keeps_bind (f := fun w : World => w.files.bytes? pa) (fun _ => others_saveAll h) fun _ _ => rfl

theorem exportFiles_ok (hp : (as.map fun x => follow (pathOf output) x.1).Nodup)
    (h : ExceptT.run (exportFiles tgt output as) w = (.ok (), w')) :
    Exports as (pathOf output) w.files w'.files ∧ w.notices ⊆ w'.notices := by
  have hf : ∀ {as : Artifacts} {n n' : List Notice} {u : Unit},
      ExceptT.run (as.forM fun x => Work.note (.exportedFile x.1)) n = (.ok u, n') → n ⊆ n' := by
    intro as
    induction as with
    | nil =>
      intro n n' u hr
      cases hr
      exact List.Subset.refl _
    | cons x tl ih =>
      intro n n' u hr
      obtain ⟨_, n₁, hn, hre⟩ := run_bind_ok hr
      exact List.Subset.trans (subset_of_note hn) (ih hre)
  obtain ⟨_, w₁, h₁, ha₁⟩ := run_bind_ok h
  obtain ⟨_, w₂, h₂, ha₂⟩ := run_bind_ok ha₁
  obtain ⟨_, w₃, h₃, ha₃⟩ := run_bind_ok ha₂
  obtain ⟨n₁, hn₁, rfl⟩ := run_reading_ok h₁
  obtain ⟨n₄, hn₄, rfl⟩ := run_reading_ok ha₃
  obtain ⟨hex, hno⟩ := exports_saveAll hp h₃
  rw [run_changing] at h₂
  cases hc : w.files.makeDirectory (pathOf output) with
  | error f =>
    simp only [hc] at h₂
    cases h₂
  | ok files =>
    simp only [hc] at h₂
    cases h₂
    refine ⟨⟨hex.written, fun pa hpa => ?_⟩, ?_⟩
    · rw [hex.others pa hpa, eq_of_makeDirectory hc, bytes?_addDirectory]
    · obtain ⟨_, m₁, hm₁, hb₁⟩ := run_bind_ok hn₄
      obtain ⟨_, m₂, hm₂, hb₂⟩ := run_bind_ok hb₁
      obtain ⟨_, m₃, hm₃, hb₃⟩ := run_bind_ok hb₂
      have hl := List.Subset.trans (subset_of_note hm₁) (List.Subset.trans (subset_of_note hm₂)
        (List.Subset.trans (subset_of_note hm₃) (hf hb₃)))
      rw [hno] at hl
      exact List.Subset.trans (subset_of_note hn₁) hl

end Writing

/-! ### Runs -/

theorem lines_infix_logLines {notice : Notice} (h : notice ∈ notices) : notice.lines <:+: logLines notices := by
  obtain ⟨b, behind, rfl⟩ := append_of_mem h
  rw [logLines, flatMap_append, flatMap_cons, ← append_assoc]
  exact infix_append ..

section Runs

variable {tgt : String} {t : FileTree} {as : Artifacts}

theorem nodup_paths_bonita {sk : Skeleton} {file : String} {doc : Document} {shown : String}
    {dir : List String} (out : List String) (ht : HasFileNames t) (hta : isBonita tgt)
    (hr : IsRead tgt t dir shown s sk file doc)
    (he : Returns (emit tgt sk (enriched tgt s) t.opened?) as) : (as.map fun x => follow out x.1).Nodup := by
  rw [emit, if_pos hta] at he
  refine bonita_nodup_paths out ?_ (fun name hn => ?_) he
  · have hs := hr.skeleton
    rw [if_pos hta] at hs
    unfold readDiagram at hs
    cases hp : firstWith? t dir ".proc" with
    | none =>
      rw [hp] at hs
      obtain ⟨_, _, hs⟩ := hs
      cases hs
    | some proc =>
      rw [hp] at hs
      obtain ⟨d, -, hpu⟩ := hs.of_bind
      obtain rfl := hpu.of_pure
      have hn := mem_names.mp (mem_of_find?_eq_some hp)
      exact isTidy_name (ht.isFileName hn) (not_conf_of_proc (endsWith_of_firstWith? hp))
  · obtain ⟨x, hen, rfl⟩ := mem_map.mp hn
    obtain ⟨source, hso, rfl⟩ := mem_map.mp hen
    have hin := (mem_readTexts hr.decisions).mp hso
    exact isTidy_child (by decide) (hin.isFileName ht) (not_conf_of_ending hin.ending)

end Runs

/-- The files when the stages begin: the directory for the output is there. -/
def atStart (o : CommandLine.Options) (files : FileTree) : FileTree := files.addDirectory (pathOf o.output)

/-- What a run prepares for the export. -/
def prepared (o : CommandLine.Options) (files : FileTree) : Except Failure Artifacts :=
  (prepare o.target (modelOf o.modelDirectory) (atStart o files)).run.1

section Outcome

variable {o : CommandLine.Options} {files : FileTree} {as : Artifacts}

theorem runCompile_files (o : CommandLine.Options) (files : FileTree) : (CommandLine.runCompile o files).files = files ∨
    (CommandLine.runCompile o files).files =
      (ExceptT.run (workflow o.target o.modelDirectory o.output) ⟨atStart o files, []⟩).2.files := by
  rw [CommandLine.runCompile]
  split
  · exact .inl rfl
  · cases hm : files.makeDirectory (pathOf o.output) with
    | error f => exact .inl rfl
    | ok made =>
      obtain rfl : made = atStart o files := eq_of_makeDirectory hm
      refine .inr ?_
      dsimp only
      rcases ExceptT.run (workflow o.target o.modelDirectory o.output) ⟨atStart o files, []⟩ with ⟨f | as, w⟩
      · dsimp only
        split <;> rfl
      · rfl

theorem runCompile_of_exitCode (h : (CommandLine.runCompile o files).exitCode = 0) : ∃ as world,
    ExceptT.run (workflow o.target o.modelDirectory o.output) ⟨atStart o files, []⟩ = (.ok as, world) ∧
      CommandLine.runCompile o files =
        { lines := CommandLine.banner ++ ["📌 Target: " ++ o.target] ++ logLines world.notices
            ++ CommandLine.closing o.output as.length
          files := world.files } := by
  rw [CommandLine.runCompile] at h ⊢
  split at h
  · cases h
  · next hd =>
    rw [if_neg hd]
    cases hm : files.makeDirectory (pathOf o.output) with
    | error f =>
      simp only [hm] at h
      cases h
    | ok made =>
      obtain rfl : made = atStart o files := eq_of_makeDirectory hm
      simp only [hm] at h
      rcases hr : ExceptT.run (workflow o.target o.modelDirectory o.output) ⟨atStart o files, []⟩ with ⟨f | as, w⟩
      · simp only [hr] at h
        split at h <;> cases h
      · refine ⟨as, w, rfl, ?_⟩
        dsimp only
        rw [hr]

/-- If the files cannot be prepared, the stages write nothing. -/
theorem bytes?_of_prepared_error {f : Failure} (h : prepared o files = .error f) (path : List String) :
    (CommandLine.runCompile o files).files.bytes? path = files.bytes? path := by
  rcases runCompile_files o files with hf | hf
  · rw [hf]
  · rw [hf, run_workflow]
    rcases hp : ExceptT.run (prepare o.target (modelOf o.modelDirectory) (atStart o files)) [] with ⟨g | as, n⟩
    · exact bytes?_addDirectory files _ path
    · have ha : prepared o files = .ok as := congrArg Prod.fst hp
      rw [ha] at h
      cases h

/-- Only the files that were prepared are written. -/
theorem bytes?_of_prepared_ok (h : prepared o files = .ok as) {path : List String}
    (hp : ∀ x ∈ as, path ≠ follow (pathOf (outputOf o.output)) x.1) :
    (CommandLine.runCompile o files).files.bytes? path = files.bytes? path := by
  rcases runCompile_files o files with hf | hf
  · rw [hf]
  · rw [hf, run_workflow]
    rcases hr : ExceptT.run (prepare o.target (modelOf o.modelDirectory) (atStart o files)) [] with ⟨g | as', n⟩
    · exact bytes?_addDirectory files _ path
    · have ha : prepared o files = .ok as' := congrArg Prod.fst hr
      obtain rfl := Except.ok.inj (ha.symm.trans h)
      have ho := others_exportFiles o.target hp ⟨atStart o files, n⟩
      dsimp only
      exact ho.trans (bytes?_addDirectory files _ path)

end Outcome

/-- Files with proper names, in a tree where the model directory stays within the limits. -/
structure IsOrderly (t : FileTree) (directory : List String) : Prop extends IsModest t directory where
  names : HasFileNames t

section Sample

/-- A model directory with a process and a template. -/
def mailTree : FileTree := [(["m", "email", "t.ftl"], .file "hello".toUTF8),
  (["m", "p.bpmn"], .file "<definitions/>".toUTF8),
  (["out"], .directory)]

def mailOptions : CommandLine.Options := { target := "camunda", modelDirectory := "m", output := "out" }

theorem names_mailTree : mailTree.names ["m"] = ["email", "p.bpmn"] ∧ mailTree.names ["m", "dmn"] = [] ∧
    mailTree.names ["m", "email"] = ["t.ftl"] ∧ mailTree.names ["m", "rest"] = [] := by
  have hs : ∀ {ns : List String}, (ns.Pairwise fun a b => (!decide (b < a))) → sortedNames ns = ns.eraseReps := by
    intro ns h
    rw [sortedNames, mergeSort_of_pairwise h]
  refine ⟨?_, hs (by decide), hs (by decide), hs (by decide)⟩
  show sortedNames ["email", "p.bpmn"] = _
  rw [hs (by decide)]
  rfl

theorem isOrderly_mailTree : IsOrderly (atStart mailOptions mailTree) (pathOf (modelOf "m")) := by
  have hd : atStart mailOptions mailTree = mailTree := rfl
  have hall : mailTree.all (fun x => x.1.all fun name => decide (IsFileName name)) := by decide +kernel
  obtain ⟨-, hdm, he, hr⟩ := names_mailTree
  rw [pathOf_m, hd]
  refine ⟨isModest_of_plain (by simp only [forall_mem_cons]; exact ⟨rfl, rfl, rfl, forall_mem_nil _⟩) ?_,
    fun x hx name hn => of_decide_eq_true (all_eq_true.mp (all_eq_true.mp hall x hx) name hn)⟩
  simp only [forall_mem_cons, readTexts, cons_append, nil_append, hdm, he, hr]
  exact ⟨rfl, by decide +kernel, rfl, forall_mem_nil _⟩

theorem runCompile_mailTree : (prepared mailOptions mailTree).toOption.map OrderedMap.keys
      = some ["p.bpmn", "email/t.ftl"] ∧ (CommandLine.runCompile mailOptions mailTree).exitCode = 0 := by
  have hd : mailTree.addDirectory (pathOf "out") = mailTree := rfl
  have hmo : mailTree.makeDirectory (pathOf "out") = .ok mailTree := rfl
  have hi : mailTree.isDirectory (pathOf "m") := rfl
  obtain ⟨hm, hdm, he, hr⟩ := names_mailTree
  constructor
  · unfold prepared atStart mailOptions prepare readSources readTexts firstWith?
    simp only [pathOf_m, hd, cons_append, nil_append, hm, hdm, he, hr]
    decide +kernel
  · unfold CommandLine.runCompile mailOptions
    simp only [hi, hmo, run_workflow, Bool.not_true, Bool.false_eq_true, if_false]
    unfold prepare readSources readTexts firstWith?
    simp only [pathOf_m, cons_append, nil_append, hm, hdm, he, hr]
    decide +kernel

end Sample

end ProcessForge.Compilation
