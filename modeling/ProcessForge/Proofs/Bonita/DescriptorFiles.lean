import Mathlib.Data.List.Chain
import ProcessForge.Bonita.DescriptorFile
import ProcessForge.Proofs.OrderedMap
import ProcessForge.Proofs.Text.Trim

/-! Files that describe tasks. The file that a task gets is the one that it refers to, or one that is named like
    the task. Names are compared by their letters and digits only. Main statement: a file that the task does not
    refer to is related to it just when the name of the task has a letter or a digit that is compared. -/

namespace ProcessForge.Bonita

open List Text

variable {cs : List Char} {c : Char} {following : Bool} {fs : OrderedMap String}
  {key suffix f : String}

/-! ### Stems of file names -/

def isKeyChar (c : Char) : Bool := c.isLower || c.isDigit || c == '_'

/-- Small letters and digits with single underscores between them. -/
structure IsKey (cs : List Char) : Prop where
  chars : ∀ c ∈ cs, isKeyChar c = true
  single : cs.IsChain fun a b => a ≠ '_' ∨ b ≠ '_'
  start : ∀ c ∈ cs.head?, (c == '_') = false
  stop : ∀ c ∈ cs.getLast?, (c == '_') = false

theorem toNat_of_isKeyChar (h : isKeyChar c) : 48 ≤ c.toNat ∧ c.toNat ≤ 57 ∨ 95 ≤ c.toNat ∧ c.toNat ≤ 122 := by
  rw [isKeyChar] at h
  delta Char.isLower at h
  simp only [Char.isDigit, Bool.or_eq_true, Bool.and_eq_true, decide_eq_true_eq, beq_iff_eq, ge_iff_le,
    UInt32.le_iff_toNat_le] at h
  rcases h with (h | h) | rfl
  · exact .inr ⟨le_trans (by decide) h.1, h.2⟩
  · exact .inl h
  · exact .inr (by decide)

theorem not_isBlank_of_isKeyChar (h : isKeyChar c) : isBlank c = false := by
  have := toNat_of_isKeyChar h
  simp only [isBlank, Bool.or_eq_false_iff, Bool.and_eq_false_iff, decide_eq_false_iff_not, beq_eq_false_iff_ne, ne_eq]
  omega

theorem toLower_of_isKeyChar (h : isKeyChar c) : c.toLower = c := by
  have := toNat_of_isKeyChar h
  delta Char.toLower
  rw [dif_neg]
  rintro ⟨hl, hu⟩
  have hl : 65 ≤ c.toNat := hl
  have hu : c.toNat ≤ 90 := hu
  omega

theorem underscoreOthers_eq_self (hc : ∀ c ∈ cs, isKeyChar c) (hs : cs.IsChain fun a b => a ≠ '_' ∨ b ≠ '_')
    (hf : following → ∀ c ∈ cs.head?, c ≠ '_') : underscoreOthers following cs = cs := by
  induction cs generalizing following with
  | nil => rfl
  | cons c cs ih =>
    obtain ⟨hch, hcs⟩ := forall_mem_cons.mp hc
    obtain ⟨hh, hs⟩ := isChain_cons.mp hs
    rw [underscoreOthers]
    split
    · rw [ih hcs hs (by simp)]
    · next hl =>
      have hu : c = '_' := by simpa [isKeyChar, hl] using hch
      rw [if_neg fun hfo => hf hfo c rfl hu, ih hcs hs fun _ d hd => (hh d hd).resolve_left (· hu), hu]

theorem underscoreOthers_spec (following : Bool) (cs : List Char) : (∀ c ∈ underscoreOthers following cs, isKeyChar c) ∧
    (underscoreOthers following cs).IsChain (fun a b => a ≠ '_' ∨ b ≠ '_') ∧
    (following → ∀ c ∈ (underscoreOthers following cs).head?, c ≠ '_') := by
  fun_induction underscoreOthers following cs with
  | case1 => exact ⟨forall_mem_nil _, .nil, fun _ => by simp⟩
  | case2 following c tl hl ih =>
    have hne : c ≠ '_' := by
      rintro rfl
      exact absurd hl (by decide)
    exact ⟨forall_mem_cons.mpr ⟨by simp [isKeyChar, hl], ih.1⟩, isChain_cons.mpr ⟨fun _ _ => .inl hne, ih.2.1⟩,
      fun _ d hd => by rwa [← Option.some.inj hd]⟩
  | case3 c tl hl ih => exact ih
  | case4 following c tl hl hf ih =>
    exact ⟨forall_mem_cons.mpr ⟨by decide, ih.1⟩, isChain_cons.mpr ⟨fun d hd => .inr (ih.2.2 rfl d hd), ih.2.1⟩,
      fun h => absurd h hf⟩

theorem isKey_fileStem (name : String) : IsKey (fileStem name).toList := by
  rw [fileStem, String.toList_ofList]
  set ds := underscoreOthers false (lower (trim name)).toList with hd
  obtain ⟨hc, hs, -⟩ := underscoreOthers_spec false (lower (trim name)).toList
  obtain ⟨b, a, hcu, -⟩ := exists_trimBy (· == '_') ds
  have hi : trimBy (· == '_') ds <:+: ds := ⟨b, a, hcu.symm⟩
  exact ⟨fun c hm => hc c (hi.subset hm), hs.infix hi, head?_trimBy _ _, getLast?_trimBy _ _⟩

theorem fileStem_of_isKey (h : IsKey key.toList) : fileStem key = key := by
  have hb : ∀ c ∈ key.toList, isBlank c = false := fun c hc => not_isBlank_of_isKeyChar (h.chars c hc)
  have ht : trim key = key := by
    rw [trim, trimChars, trimBy_eq_self (fun c hc => hb c (mem_of_mem_head? hc))
      fun c hc => hb c (mem_of_mem_getLast? hc), String.ofList_toList]
  have hl : lowerChars key.toList = key.toList := by
    rw [lowerChars_of_ascii fun c hc => by have := toNat_of_isKeyChar (h.chars c hc); omega]
    exact (map_congr_left fun c hc => toLower_of_isKeyChar (h.chars c hc)).trans (map_id _)
  rw [fileStem, ht, lower, hl, String.toList_ofList, underscoreOthers_eq_self h.chars h.single (by simp),
    trimBy_eq_self h.start h.stop, String.ofList_toList]

theorem IsKey.not_mem (h : IsKey cs) (hc : isKeyChar c = false) : c ∉ cs := fun hm =>
  Bool.false_ne_true (hc.symm.trans (h.chars c hm))

/-- A stem with an underscore and another stem behind it is a stem. -/
theorem IsKey.joined (h : IsKey key.toList) (hk : key ≠ "") (hs : IsKey suffix.toList) (hn : suffix ≠ "") :
    IsKey (key ++ "_" ++ suffix).toList := by
  have hl : (key ++ "_" ++ suffix).toList = key.toList ++ '_' :: suffix.toList := by simp
  rw [hl]
  refine ⟨?_, ?_, ?_, ?_⟩
  · simp only [mem_append, mem_cons]
    rintro c (hc | rfl | hc)
    · exact h.chars c hc
    · decide
    · exact hs.chars c hc
  · refine isChain_append.mpr ⟨h.single, isChain_cons.mpr ⟨fun d hd => .inr ?_, hs.single⟩, fun c hc _ _ => .inl ?_⟩
    · simpa using hs.start d hd
    · simpa using h.stop c hc
  · rw [head?_append_of_ne_nil _ (by simpa using hk)]
    exact h.start
  · rw [getLast?_append_of_ne_nil _ (cons_ne_nil _ _), getLast?_cons_of_ne_nil (by simpa using hn)]
    exact hs.stop

theorem stripExtension_json (h : IsKey key.toList) (hk : key ≠ "") :
    Reference.stripExtension (key ++ ".json") = key := by
  have hl : (key ++ ".json").toList = key.toList ++ '.' :: "json".toList := by simp
  have hsl : afterLast '/' (key ++ ".json").toList = (key ++ ".json").toList :=
    afterLast_of_not_mem (by simp [hl, h.not_mem (c := '/') (by decide)])
  have hst : Reference.stemOf (key ++ ".json").toList = key.toList := by
    have hany : key.toList.any (· != '.') := by
      obtain ⟨c, hc⟩ := exists_mem_of_ne_nil key.toList (by simpa using hk)
      exact any_eq_true.mpr ⟨c, hc, bne_iff_ne.mpr fun hd => h.not_mem (c := '.') (by decide) (hd ▸ hc)⟩
    rw [Reference.stemOf, hl, afterLast_append _ (by decide)]
    simp [hany]
  rw [Reference.stripExtension, hsl, hst, Nat.sub_self, take_zero, nil_append, String.ofList_toList]

theorem fileStem_json (h : IsKey key.toList) (hk : key ≠ "") :
    fileStem (Reference.stripExtension (key ++ ".json")) = key := by
  rw [stripExtension_json h hk, fileStem_of_isKey h]

/-! ### The lookup -/

/-- A reference names a file. -/
def IsReferred (ref : Option String) (f : String) : Prop :=
  ∃ r ∈ ref, isBlankText r = false ∧ Reference.fileName (trim r) = f

/-- The stem of a file is a given one, with or without a suffix. -/
def IsNamesake (stem suffix f : String) : Prop :=
  fileStem (Reference.stripExtension f) = stem ∨ fileStem (Reference.stripExtension f) = stem ++ "_" ++ suffix

/-- What the lookup takes for a file of a stem: two fixed names, or any namesake. -/
def IsCandidate (stem suffix f : String) : Prop :=
  f = stem ++ "_" ++ suffix ++ ".json" ∨ f = stem ++ ".json" ∨ IsNamesake stem suffix f

/-- The stem of the files of a task; empty if its name has no letters or digits to compare. -/
def taskStem (task : Option String) : String := fileStem (task.getD "")

theorem referredFile?_cases (ref : Option String) (fs : OrderedMap String) :
    (referredFile? ref fs = none ∧ ∀ f ∈ fs.keys, ¬ IsReferred ref f) ∨
      ∃ f ∈ fs.keys, referredFile? ref fs = some f ∧ IsReferred ref f := by
  rcases ref with _ | r
  · refine .inl ⟨rfl, ?_⟩
    rintro f - ⟨_, hr, -⟩
    exact Option.not_mem_none _ hr
  · rw [referredFile?]
    split
    · next hb =>
      refine .inl ⟨rfl, ?_⟩
      rintro f - ⟨r, hr, hn, -⟩
      rw [Option.mem_some_iff.mp hr, hn] at hb
      cases hb
    · next hb =>
      dsimp only
      split
      · next hh => exact .inr ⟨_, OrderedMap.has_iff.mp hh, rfl, r, rfl, by simpa using hb, rfl⟩
      · next hh =>
        refine .inl ⟨rfl, ?_⟩
        rintro f hf ⟨r, hr, -, rfl⟩
        rw [← Option.mem_some_iff.mp hr] at hf
        exact hh (OrderedMap.has_iff.mpr hf)

theorem namesakeFile?_cases (task : Option String) (fs : OrderedMap String) (suffix : String) :
    (namesakeFile? task fs suffix = none ∧ (isBlankText (task.getD "") ∨
      ∀ f ∈ fs.keys, ¬ IsCandidate (taskStem task) suffix f)) ∨
    ∃ f ∈ fs.keys, namesakeFile? task fs suffix = some f ∧ isBlankText (task.getD "") = false ∧
      IsCandidate (taskStem task) suffix f := by
  rcases task with _ | task
  · exact .inl ⟨rfl, .inl rfl⟩
  rw [namesakeFile?, taskStem]
  split
  · next hb => exact .inl ⟨rfl, .inl hb⟩
  next hb =>
  replace hb : isBlankText task = false := by simpa using hb
  dsimp only
  split
  · next hh => exact .inr ⟨_, OrderedMap.has_iff.mp hh, rfl, hb, .inl rfl⟩
  next hlong =>
  split
  · next hh => exact .inr ⟨_, OrderedMap.has_iff.mp hh, rfl, hb, .inr (.inl rfl)⟩
  next hshort =>
  cases hfi : fs.keys.find? _ with
  | none =>
    refine .inl ⟨rfl, .inr ?_⟩
    rintro f hf (rfl | rfl | hn)
    · exact hlong (OrderedMap.has_iff.mpr hf)
    · exact hshort (OrderedMap.has_iff.mpr hf)
    · exact find?_eq_none.mp hfi f hf (by simpa [IsNamesake] using hn)
  | some f =>
    exact .inr ⟨f, mem_of_find?_eq_some hfi, rfl, hb, .inr (.inr (by simpa [IsNamesake] using find?_some hfi))⟩

theorem descriptorFile?_cases (ref task : Option String) (fs : OrderedMap String) (suffix : String) :
    (descriptorFile? ref task fs suffix = none ∧ (∀ f ∈ fs.keys, ¬ IsReferred ref f) ∧
      (isBlankText (task.getD "") ∨ ∀ f ∈ fs.keys, ¬ IsCandidate (taskStem task) suffix f)) ∨
    ∃ f ∈ fs.keys, descriptorFile? ref task fs suffix = some f ∧ (IsReferred ref f ∨
      isBlankText (task.getD "") = false ∧ IsCandidate (taskStem task) suffix f) := by
  rw [descriptorFile?]
  rcases referredFile?_cases ref fs with ⟨hr, hno⟩ | ⟨f, hf, hr, hre⟩
  · rw [hr]
    rcases namesakeFile?_cases task fs suffix with ⟨hn, hc⟩ | ⟨f, hf, hn, hc⟩
    · exact .inl ⟨hn, hno, hc⟩
    · exact .inr ⟨f, hf, hn, .inr hc⟩
  · rw [hr]
    exact .inr ⟨f, hf, rfl, .inl hre⟩

theorem isNamesake_suffixed (name : String) (hs : IsKey suffix.toList) (hn : suffix ≠ "") (hk : fileStem name ≠ "") :
    IsNamesake (fileStem name) suffix (fileStem name ++ "_" ++ suffix ++ ".json") :=
  .inr (fileStem_json ((isKey_fileStem name).joined hk hs hn) (by simp))

/-- Candidates are namesakes, unless the suffix is none that a stem can have. -/
theorem isNamesake_of_isCandidate {name : String} (hk : fileStem name ≠ "") (h : IsCandidate (fileStem name) suffix f)
    (hl : f = fileStem name ++ "_" ++ suffix ++ ".json" → IsNamesake (fileStem name) suffix f) :
    IsNamesake (fileStem name) suffix f := by
  rcases h with h | rfl | h
  · exact hl h
  · exact .inl (fileStem_json (isKey_fileStem name) hk)
  · exact h

/-- Files that a task refers to or that are named like it, where the name has something to compare. -/
def IsRelated (ref : Option String) (stem suffix f : String) : Prop :=
  IsReferred ref f ∨ stem ≠ "" ∧ IsNamesake stem suffix f

/-- The file of a task is one of the files. It is related to the task, unless the name of the task has nothing to
    compare, when any file with such a name is taken, or the suffix is none that a stem can have. -/
theorem descriptor_file_related_iff (ref task : Option String) (files : OrderedMap String) (suffix : String) :
    (∀ f, descriptorFile? ref task files suffix = some f → f ∈ files.keys ∧
      (IsRelated ref (taskStem task) suffix f ↔ IsReferred ref f ∨ taskStem task ≠ "" ∧
        (f = taskStem task ++ "_" ++ suffix ++ ".json" → IsNamesake (taskStem task) suffix f))) ∧
    ((∀ f ∈ files.keys, ¬ IsRelated ref (taskStem task) suffix f) →
      (descriptorFile? ref task files suffix = none ↔ isBlankText (task.getD "") = true ∨
        ∀ f ∈ files.keys, f ≠ taskStem task ++ "_" ++ suffix ++ ".json" ∧
          (taskStem task = "" → ¬ IsCandidate "" suffix f))) ∧
    (fileStem suffix = suffix → suffix ≠ "" → taskStem task ≠ "" →
      IsNamesake (taskStem task) suffix (taskStem task ++ "_" ++ suffix ++ ".json")) := by
  refine ⟨?_, ?_, fun hs => isNamesake_suffixed _ (hs ▸ isKey_fileStem suffix)⟩
  · intro f h
    rcases descriptorFile?_cases ref task files suffix with ⟨hr, -⟩ | ⟨g, hg, hr, hc⟩
    · cases hr.symm.trans h
    · obtain rfl : g = f := Option.some.inj (hr.symm.trans h)
      refine ⟨hg, fun h => h.imp_right fun h => ⟨h.1, fun _ => h.2⟩, ?_⟩
      rintro (h | ⟨hk, hl⟩)
      · exact .inl h
      · exact hc.imp_right fun hc => ⟨hk, isNamesake_of_isCandidate hk hc.2 hl⟩
  · intro hno
    have hca : (∀ f ∈ files.keys, ¬ IsCandidate (taskStem task) suffix f) ↔ ∀ f ∈ files.keys,
        f ≠ taskStem task ++ "_" ++ suffix ++ ".json" ∧ (taskStem task = "" → ¬ IsCandidate "" suffix f) := by
      refine forall₂_congr fun f hf => ⟨fun hc => ⟨fun h => hc (.inl h), fun he => he ▸ hc⟩, ?_⟩
      rintro ⟨hl, he⟩ hc
      have hk : taskStem task ≠ "" := fun h => he h (h ▸ hc)
      exact hno f hf (.inr ⟨hk, isNamesake_of_isCandidate hk hc fun h => absurd h hl⟩)
    rcases descriptorFile?_cases ref task files suffix with ⟨hr, -, hc⟩ | ⟨f, hf, hr, hc⟩
    · exact iff_of_true hr (hc.imp_right hca.mp)
    · obtain ⟨hb, hc⟩ := hc.resolve_left fun h => hno f hf (.inl h)
      refine iff_of_false (by simp [hr]) ?_
      rintro (h | h)
      · cases hb.symm.trans h
      · exact hca.mpr h f hf hc

theorem descriptor_file_related_iff_scoring :
    descriptorFile? none (some "Call Scoring API") [("other.json", ""), ("call-scoring.API_rest.json", "")] "rest"
      = some "call-scoring.API_rest.json" ∧
    IsRelated none (taskStem (some "Call Scoring API")) "rest" "call-scoring.API_rest.json" := by
  have hd : descriptorFile? none (some "Call Scoring API")
      [("other.json", ""), ("call-scoring.API_rest.json", "")] "rest" = some "call-scoring.API_rest.json" := by
    decide +kernel
  refine ⟨hd, ((descriptor_file_related_iff _ _ _ _).1 _ hd).2.mpr (.inr ⟨by decide +kernel, fun h => ?_⟩)⟩
  exact absurd h (by decide +kernel)

/-- A task whose name has no letters or digits to compare gets a file of another such name. -/
theorem file_of_other_name : descriptorFile? none (some "결제") [("고객.json", "")] "rest" = some "고객.json" ∧
    ¬ IsRelated none (taskStem (some "결제")) "rest" "고객.json" := by
  refine ⟨by decide +kernel, ?_⟩
  rintro (⟨_, hr, -⟩ | ⟨hk, -⟩)
  · exact Option.not_mem_none _ hr
  · exact hk (by decide +kernel)

end ProcessForge.Bonita
