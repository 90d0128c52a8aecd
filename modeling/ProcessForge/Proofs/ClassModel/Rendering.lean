import ProcessForge.Proofs.ClassModel.Blocks
import ProcessForge.Proofs.Text.BlankLines

/-! Rendering of class models. A model whose names have the form that diagrams allow is written as a diagram, one
    block for each class and each enumeration and one line for each composition. Main statement: diagrams are read
    just if they follow the grammar of parts, what is read can be written, and what is written is read back. -/

namespace ProcessForge.ClassModel

open List Text

variable {line cs : List Char} {c : Char} {name value v : String} {count : Option String} {parts : List Part}
  {m : ClassModel}

/-! ### Lines that count -/

instance : DecidablePred IsFrame := fun _ => inferInstanceAs (Decidable (_ ∨ _))

/-- The lines of a text up to their first apostrophe, trimmed, without blank lines and the marks around diagrams. -/
def countingLines (s : String) : List (List Char) :=
  ((lines s.toList).map fun line => trimChars (line.takeWhile (· ≠ '\''))).filter
    fun line => line ≠ [] ∧ ¬IsFrame line

theorem significantLines_eq (s : String) : significantLines s = countingLines s := by
  have hc : significant = fun line => trimChars (line.takeWhile (· ≠ '\'')) := by
    funext line
    have hn : (fun c : Char => c != '\'') = fun c => decide (c ≠ '\'') := by
      funext c
      rw [Bool.eq_iff_iff]
      simp
    rw [significant, hn]
  rw [significantLines, hc]
  refine filter_congr fun line _ => ?_
  rw [Bool.eq_iff_iff]
  simp [← isFrameLine_iff]

theorem not_quote_of_mem_countingLines {s : String} (h : line ∈ countingLines s) : '\'' ∉ line := by
  obtain ⟨raw, -, rfl⟩ := mem_map.mp (mem_filter.mp h).1
  intro hq
  obtain ⟨pre, post, hs, -, -⟩ := exists_trimBy isBlank (raw.takeWhile (· ≠ '\''))
  have hm : '\'' ∈ raw.takeWhile (· ≠ '\'') := by
    rw [hs]
    exact mem_append_left _ (mem_append_right _ hq)
  simpa using mem_takeWhile_imp hm

/-! ### Names that can be written -/

/-- Values that can be written: rows of characters without blanks and the marks that a line is cut at. -/
def IsValue (value : String) : Prop :=
  value ≠ "" ∧ ∀ c ∈ value.toList, isBlank c = false ∧ c ≠ ',' ∧ c ≠ ';' ∧ c ≠ '\''

def IsCount (count : Option String) : Prop := count = none ∨ count = some "1" ∨ count = some "many"

def IsFieldForm (field : ClassField) : Prop := IsIdentifier field.name ∧ ∀ type ∈ field.type, IsIdentifier type

def Part.IsWritable : Part → Prop
  | .ofClass name fields => IsName name ∧ ∀ field ∈ fields, IsFieldForm field
  | .ofEnum name values => IsName name ∧ ∀ value ∈ values, IsValue value
  | .ofComposition c =>
    IsName c.owner ∧ IsName c.part ∧ IsCount c.ownerMultiplicity ∧ IsCount c.partMultiplicity

instance : DecidablePred IsName := fun name =>
  decidable_of_iff (name ≠ "" ∧ name.toList.all isWord = true) (by rw [IsName, all_eq_true])

instance : DecidablePred IsIdentifier := fun name =>
  decidable_of_iff (IsName name ∧ name.toList.head?.all (fun c => c.isAlpha || c == '_') = true)
    (by simp [IsIdentifier, Option.all_eq_true])

instance : DecidablePred IsFieldForm := fun field =>
  decidable_of_iff (IsIdentifier field.name ∧ field.type.all (fun type => decide (IsIdentifier type)) = true)
    (by simp [IsFieldForm, Option.all_eq_true])

instance : DecidablePred IsValue := fun value =>
  decidable_of_iff
    (value ≠ "" ∧ value.toList.all (fun c => !Text.isBlank c && c != ',' && c != ';' && c != '\'') = true)
    (by simp [IsValue, and_assoc])

instance : DecidablePred IsCount := fun _ => inferInstanceAs (Decidable (_ ∨ _ ∨ _))

instance : DecidablePred Part.IsWritable
  | .ofClass .. => inferInstanceAs (Decidable (_ ∧ _))
  | .ofEnum .. => inferInstanceAs (Decidable (_ ∧ _))
  | .ofComposition _ => inferInstanceAs (Decidable (_ ∧ _ ∧ _ ∧ _))

/-- The parts of a model: its classes, its enumerations, and its compositions. -/
def partsOf (m : ClassModel) : List Part := m.classes.map (fun entry => .ofClass entry.1 entry.2.fields) ++
    (m.enums.map (fun entry => .ofEnum entry.1 entry.2) ++ m.compositions.map .ofComposition)

/-- Models that can be written. -/
structure IsWritable (m : ClassModel) : Prop where
  classes : m.classes.keys.Nodup
  names : ∀ entry ∈ m.classes, entry.2.name = entry.1
  enums : m.enums.keys.Nodup
  parts : ∀ part ∈ partsOf m, part.IsWritable

/-- A composition with its missing multiplicities filled in. -/
def completeComposition (c : Composition) : Composition :=
  { c with
    ownerMultiplicity := some (c.ownerMultiplicity.getD "1")
    partMultiplicity := some (c.partMultiplicity.getD "1") }

/-- A model with the missing multiplicities filled in. -/
def complete (m : ClassModel) : ClassModel := { m with compositions := m.compositions.map completeComposition }

/-! ### Rendering -/

def indented (line : List Char) : List Char := ' ' :: ' ' :: line

/-- A name, and a type behind a colon if there is one. -/
def fieldText (field : ClassField) : List Char :=
  match field.type with
  | none => field.name.toList
  | some type => field.name.toList ++ ':' :: ' ' :: type.toList

/-- A value with a comma, so that no value closes its block or is a mark around the diagram. -/
def valueText (value : String) : List Char := value.toList ++ [',']

def countText : Option String → List Char
  | none => []
  | some count => '"' :: (count.toList ++ ['"', ' '])

def openingText (keyword name : String) : List Char := keyword.toList ++ ' ' :: (name.toList ++ [' ', '\x7b'])

/-- The owner, the part, and the diamond between them. -/
def compositionText (c : Composition) : List Char := c.owner.toList ++
    ' ' :: (countText c.ownerMultiplicity ++
      '*' :: '-' :: '-' :: ' ' :: (countText c.partMultiplicity ++ c.part.toList))

def Part.lines : Part → List (List Char)
  | .ofClass name fields => openingText "class" name :: (fields.map (indented ∘ fieldText) ++ [closing])
  | .ofEnum name values => openingText "enum" name :: (values.map (indented ∘ valueText) ++ [closing])
  | .ofComposition c => [compositionText c]

def render (m : ClassModel) : String :=
  String.ofList (ended ("@startuml".toList :: ((partsOf m).flatMap Part.lines ++ ["@enduml".toList])))

/-! ### Rendered lines -/

/-- Characters that neither end a line nor cut it off. -/
def IsInline (cs : List Char) : Prop := ∀ c ∈ cs, isLineBreak c = false ∧ c ≠ '\''

theorem isInline_append {ds : List Char} : IsInline (cs ++ ds) ↔ IsInline cs ∧ IsInline ds := forall_mem_append

theorem isInline_cons : IsInline (c :: cs) ↔ (isLineBreak c = false ∧ c ≠ '\'') ∧ IsInline cs := forall_mem_cons

theorem isInline_nil : IsInline [] := nofun

theorem isInline_of_all (h : (cs.all fun c => !Text.isLineBreak c && c != '\'')) : IsInline cs := by
  intro c hc
  simpa using all_eq_true.mp h c hc

theorem isGap_of_all (h : cs.all isBlank) : IsGap cs := all_eq_true.mp h

theorem isLineBreak_of_not_isBlank (h : isBlank c = false) : isLineBreak c = false := by
  cases hb : isLineBreak c with
  | false => rfl
  | true => rw [isBlank_of_isLineBreak hb] at h; cases h

theorem IsName.isInline (h : IsName name) : IsInline name.toList := by
  intro c hc
  have hw := h.2 c hc
  refine ⟨isLineBreak_of_not_isBlank (isBlank_of_isWord hw), ?_⟩
  rintro rfl
  exact absurd hw (by decide)

theorem IsValue.isInline (h : IsValue v) : IsInline v.toList := fun c hc =>
  ⟨isLineBreak_of_not_isBlank (h.2 c hc).1, (h.2 c hc).2.2.2⟩

theorem IsCount.isInline (h : IsCount count) : IsInline (countText count) := by
  rcases h with rfl | rfl | rfl
  · exact isInline_nil
  · exact isInline_of_all (by decide)
  · exact isInline_of_all (by decide)

theorem eq_at_of_toLower (h : c.toLower = '@') : c = '@' := by
  have ha : c.toNat < 128 := ascii_of_toLower (by rw [h]; decide)
  have hal : ((range 128).all fun n => (Char.ofNat n).toLower != '@' || Char.ofNat n == '@') := by
    decide +kernel
  have hc := all_eq_true.mp hal c.toNat (mem_range.mpr ha)
  rw [Char.ofNat_toNat, h] at hc
  simpa using hc

theorem IsFrame.spec (h : IsFrame line) : line.head? = some '@' ∧ ',' ∉ line := by
  have hma : ∃ rest, line.map Char.toLower = '@' :: rest ∧ ',' ∉ rest := by
    rcases h with h | h
    · exact ⟨_, h, by decide⟩
    · exact ⟨_, h, by decide⟩
  obtain ⟨rest, hr, hco⟩ := hma
  obtain ⟨c, cs, rfl, hc, rfl⟩ := map_eq_cons_iff.mp hr
  obtain rfl := eq_at_of_toLower hc
  refine ⟨rfl, fun hm => ?_⟩
  rcases mem_cons.mp hm with heq | hm
  · exact absurd heq (by decide)
  · exact hco (mem_map.mpr ⟨',', hm, by decide⟩)

/-- A line of a text that counts with a certain content. -/
structure Shows (line content : List Char) : Prop where
  inline : IsInline line
  cut : trimChars (line.takeWhile (· ≠ '\'')) = content
  counts : content ≠ [] ∧ ¬IsFrame content

theorem shows_append (gap content : List Char) (hg : IsGap gap) (hin : IsInline (gap ++ content)) {d : Char}
    (hh : content.head? = some c) (hc : isBlank c = false) (hl : content.getLast? = some d)
    (hd : isBlank d = false) (hf : ¬IsFrame content) : Shows (gap ++ content) content := by
  refine ⟨hin, ?_, ?_, hf⟩
  · have ht : (gap ++ content).takeWhile (· ≠ '\'') = gap ++ content :=
      takeWhile_eq_self_iff.mpr fun e he => by simpa using (hin e he).2
    have htr : trimBy isBlank content = content := trimBy_eq_self (by simpa [hh] using hc) (by simpa [hl] using hd)
    have ha := trimBy_append content hg (fun e (he : e ∈ []) => nomatch he)
    rw [ht, trimChars, ← append_nil (gap ++ content), ha, htr]
  · rintro rfl
    cases hh

theorem isGap_indent : IsGap [' ', ' '] := isGap_of_all (by decide)

theorem isGap_space : IsGap [' '] := isGap_of_all (by decide)

theorem IsName.exists_head (h : IsName name) : ∃ c tl, name.toList = c :: tl ∧ isBlank c = false ∧ c ≠ '@' := by
  obtain ⟨c, tl, hc⟩ := exists_cons_of_ne_nil h.ne_nil
  have hw : isWord c := h.2 c (by simp [hc])
  refine ⟨c, tl, hc, isBlank_of_isWord hw, ?_⟩
  rintro rfl
  exact absurd hw (by decide)

theorem IsName.exists_last (h : IsName name) : ∃ init d, name.toList = init ++ [d] ∧ isBlank d = false :=
  ⟨_, _, (dropLast_concat_getLast h.ne_nil).symm, isBlank_of_isWord (h.2 _ (getLast_mem h.ne_nil))⟩

theorem not_isFrame_of_head (h : line.head? = some c) (hc : c ≠ '@') : ¬IsFrame line := by
  intro hf
  rw [hf.spec.1] at h
  exact hc (Option.some.inj h).symm

/-! ### Lines of parts -/

theorem shows_opening (keyword : String) {tl : List Char} (hk : keyword.toList = c :: tl)
    (hin : IsInline keyword.toList) (hc : isBlank c = false ∧ c ≠ '@') (hn : IsName name) :
    Shows (openingText keyword name) (openingText keyword name) ∧ Opens keyword (openingText keyword name) name := by
  have hh : (openingText keyword name).head? = some c := by simp [openingText, hk]
  constructor
  · refine shows_append [] (openingText keyword name) nofun ?_ hh hc.1 (d := '\x7b') ?_ (by decide)
      (not_isFrame_of_head hh hc.2)
    · rw [nil_append, openingText, isInline_append, isInline_cons, isInline_append]
      exact ⟨hin, by decide, hn.isInline, isInline_of_all (by decide)⟩
    · simp [openingText, getLast?_append, getLast?_cons]
  · exact ⟨[' '], [' '], by simp, isGap_space, hn, isGap_space, by simp [openingText]⟩

theorem shows_closing : Shows Part.closing Part.closing :=
  shows_append [] Part.closing nofun (isInline_of_all (by decide)) rfl (by decide) rfl (by decide)
    (not_isFrame_of_head rfl (by decide))

variable {field f : ClassField} {part : Part} {lines : List (List Char)}

theorem shows_field (h : IsFieldForm field) :
    Shows (indented (fieldText field)) (fieldText field) ∧ IsField (fieldText field) field := by
  obtain ⟨name, type⟩ := field
  obtain ⟨hn, ht⟩ := h
  obtain ⟨c, tl, hc, hb, ha⟩ := hn.1.exists_head
  have hin : IsInline [' ', ' '] := isInline_of_all (by decide)
  cases type with
  | none =>
    obtain ⟨init, d, hd, hl⟩ := hn.1.exists_last
    have hh : name.toList.head? = some c := by rw [hc]; rfl
    refine ⟨?_, hn, rfl⟩
    exact shows_append [' ', ' '] _ isGap_indent (isInline_append.mpr ⟨hin, hn.1.isInline⟩) hh hb
      (d := d) (by simp [hd]) hl (not_isFrame_of_head hh ha)
  | some type =>
    have ht' : IsIdentifier type := ht type rfl
    obtain ⟨init, d, hd, hl⟩ := ht'.1.exists_last
    have hh : (fieldText ⟨name, some type⟩).head? = some c := by simp [fieldText, hc]
    have hinl : IsInline (fieldText ⟨name, some type⟩) := by
      rw [fieldText, isInline_append, isInline_cons, isInline_cons]
      exact ⟨hn.1.isInline, by decide, by decide, ht'.1.isInline⟩
    refine ⟨?_, hn, ht', [], [' '], nofun, isGap_space, by simp [fieldText]⟩
    exact shows_append [' ', ' '] _ isGap_indent (isInline_append.mpr ⟨hin, hinl⟩) hh hb
      (d := d) (by simp [hd, getLast?_append, getLast?_cons]) hl
      (not_isFrame_of_head hh ha)

theorem shows_value (h : IsValue value) : Shows (indented (valueText value)) (valueText value) ∧
    valueText value ≠ Part.closing ∧ lineValue? (valueText value) = some value := by
  have hn : value.toList ≠ [] := by simpa using h.1
  obtain ⟨c, tl, hc⟩ := exists_cons_of_ne_nil hn
  have hl : (valueText value).getLast? = some ',' := by simp [valueText]
  refine ⟨?_, ?_, ?_⟩
  · refine shows_append [' ', ' '] (valueText value) isGap_indent ?_ (c := c) (by simp [valueText, hc])
      (h.2 c (by simp [hc])).1 hl (by decide)
      fun hfr => hfr.spec.2 (by simp [valueText])
    rw [valueText, isInline_append, isInline_append]
    exact ⟨isInline_of_all (by decide), h.isInline, isInline_of_all (by decide)⟩
  · intro hcl
    rw [hcl] at hl
    exact absurd hl (by decide)
  · have hf : (valueText value).filter (fun c => c ≠ ',' ∧ c ≠ ';') = value.toList := by
      rw [valueText, filter_append, filter_eq_self.mpr]
      · simp
      · intro d hd
        simpa using ⟨(h.2 d hd).2.1, (h.2 d hd).2.2.1⟩
    have hdr : value.toList.dropWhile isBlank = value.toList :=
      dropWhile_eq_self fun d hd => (h.2 d (mem_of_mem_head? hd)).1
    have ht : value.toList.takeWhile (fun c => !Text.isBlank c) = value.toList :=
      takeWhile_eq_self_iff.mpr fun d hd => by simp [(h.2 d hd).1]
    rw [lineValue?, leadingToken, hf, hdr, ht, if_neg hn, String.ofList_toList]

theorem IsCount.counts (h : IsCount count) : Counts (countText count) (count.getD "1") := by
  rcases h with rfl | rfl | rfl
  · exact .missing
  · exact .one isGap_space
  · exact .many isGap_space

theorem shows_composition {c : Composition} (h : (Part.ofComposition c).IsWritable) :
    Shows (compositionText c) (compositionText c) ∧ IsComposition (compositionText c) (completeComposition c) := by
  obtain ⟨ho, hp, hc, hc'⟩ := h
  constructor
  · obtain ⟨a, tl, ha, hb, hat⟩ := ho.exists_head
    obtain ⟨init, d, hd, hl⟩ := hp.exists_last
    have hh : (compositionText c).head? = some a := by simp [compositionText, ha]
    refine shows_append [] (compositionText c) nofun ?_ hh hb (d := d) ?_ hl (not_isFrame_of_head hh hat)
    · rw [nil_append, compositionText]
      simp only [isInline_append, isInline_cons]
      exact ⟨ho.isInline, by decide, hc.isInline, by decide, by decide, by decide, by decide, hc'.isInline, hp.isInline⟩
    · simp [compositionText, hd, getLast?_cons]
  · exact ⟨ho, hp, [' '], _, [' '], _, _, _, isGap_space, hc.counts, isGap_space, hc'.counts, rfl, rfl,
      by simp [compositionText, completeComposition]⟩

/-! ### Rendered diagrams -/

/-- A part with the missing multiplicities filled in. -/
def Part.complete : Part → Part
  | .ofComposition c => .ofComposition (completeComposition c)
  | part => part

theorem Part.IsWritable.exists_written (h : part.IsWritable) : ∃ piece,
    Forall₂ Shows part.lines piece ∧ part.complete.Written piece := by
  cases part with
  | ofClass name fields =>
    have ho := shows_opening "class" rfl (isInline_of_all (by decide)) (by decide) h.1
    have hfi : Forall₂ Shows (fields.map (indented ∘ fieldText)) (fields.map fieldText) := by
      rw [forall₂_map_left_iff, forall₂_map_right_iff, forall₂_same]
      exact fun f hf => (shows_field (h.2 f hf)).1
    have hin : Forall₂ IsField (fields.map fieldText) fields := by
      rw [forall₂_map_left_iff, forall₂_same]
      exact fun f hf => (shows_field (h.2 f hf)).2
    exact ⟨_, .cons ho.1 (rel_append hfi (.cons shows_closing .nil)), .ofClass ho.2 hin⟩
  | ofEnum name values =>
    have ho := shows_opening "enum" rfl (isInline_of_all (by decide)) (by decide) h.1
    have hva : Forall₂ Shows (values.map (indented ∘ valueText)) (values.map valueText) := by
      rw [forall₂_map_left_iff, forall₂_map_right_iff, forall₂_same]
      exact fun v hv => (shows_value (h.2 v hv)).1
    have hr : (values.map valueText).filterMap lineValue? = values := by
      rw [filterMap_map]
      exact (filterMap_congr fun v hv => (shows_value (h.2 v hv)).2.2).trans filterMap_some
    have hin : ∀ line ∈ values.map valueText, line ≠ Part.closing := by
      rw [forall_mem_map]
      exact fun v hv => (shows_value (h.2 v hv)).2.1
    have hw := Part.Written.ofEnum ho.2 hin
    rw [hr] at hw
    exact ⟨_, .cons ho.1 (rel_append hva (.cons shows_closing .nil)), hw⟩
  | ofComposition c =>
    have hl := shows_composition h
    exact ⟨_, .cons hl.1 .nil, .ofComposition hl.2⟩

theorem exists_spells (h : ∀ part ∈ parts, part.IsWritable) : ∃ contents,
    Forall₂ Shows (parts.flatMap Part.lines) contents ∧ Spells (parts.map Part.complete) contents := by
  induction parts with
  | nil => exact ⟨[], .nil, .nil⟩
  | cons part parts ih =>
    rw [forall_mem_cons] at h
    obtain ⟨p, hs, hw⟩ := h.1.exists_written
    obtain ⟨contents, hr, ps, hp, rfl⟩ := ih h.2
    exact ⟨_, rel_append hs hr, p :: ps, .cons hw hp, rfl⟩

theorem countingLines_ended {contents : List (List Char)} (h : Forall₂ Shows lines contents) :
    countingLines (String.ofList (ended ("@startuml".toList :: (lines ++ ["@enduml".toList])))) = contents := by
  have hb : ∀ line ∈ "@startuml".toList :: (lines ++ ["@enduml".toList]), ∀ c ∈ line, isLineBreak c = false := by
    have hli : ∀ line ∈ lines, ∀ c ∈ line, isLineBreak c = false := by
      induction h with
      | nil => nofun
      | cons hl _ ih => exact forall_mem_cons.mpr ⟨fun c hc => (hl.inline c hc).1, ih⟩
    rw [forall_mem_cons, forall_mem_append, forall_mem_singleton]
    exact ⟨fun c hc => (isInline_of_all (by decide) c hc).1, hli, fun c hc => (isInline_of_all (by decide) c hc).1⟩
  have hco : ((lines.map fun line => trimChars (line.takeWhile (· ≠ '\''))).filter
      fun line => line ≠ [] ∧ ¬IsFrame line) = contents := by
    clear hb
    induction h with
    | nil => rfl
    | cons hl _ ih => rw [map_cons, hl.cut, filter_cons_of_pos (by simpa using hl.counts), ih]
  rw [countingLines, String.toList_ofList, lines_ended hb, map_cons, map_append,
    filter_cons_of_neg (by decide), filter_append, hco]
  simp only [map_cons, map_nil]
  rw [filter_cons_of_neg (by decide), filter_nil, append_nil]

theorem modelOf_partsOf (h : IsWritable m) : modelOf ((partsOf m).map Part.complete) = complete m := by
  have hcl : ((partsOf m).map Part.complete).filterMap Part.classBlock? = m.classes.map fun x => (x.1, x.2.fields) := by
    simp [partsOf, Part.complete, Part.classBlock?, filterMap_map, Function.comp_def]
  have hen : ((partsOf m).map Part.complete).filterMap Part.enumBlock? = m.enums := by
    simp [partsOf, Part.complete, Part.enumBlock?, filterMap_map, Function.comp_def]
  have hc : ((partsOf m).map Part.complete).filterMap Part.composition? = m.compositions.map completeComposition := by
    simp [partsOf, Part.complete, Part.composition?, filterMap_map, Function.comp_def]
  have hg : grouped (m.classes.map fun x => (x.1, x.2.fields)) = m.classes.map fun x => (x.1, x.2.fields) :=
    grouped_of_nodup (by simpa [OrderedMap.keys, Function.comp_def] using h.classes)
  have hn : named (m.classes.map fun x => (x.1, x.2.fields)) = m.classes := by
    rw [named, map_map]
    refine (map_congr_left fun x he => ?_).trans (map_id _)
    obtain ⟨key, name, fs⟩ := x
    obtain rfl : name = key := h.names _ he
    rfl
  rw [modelOf, hcl, hen, hc, hg, hn, grouped_of_nodup h.enums, complete]

theorem ofDiagram_render (h : IsWritable m) : ofDiagram (render m) = .ok (complete m) := by
  obtain ⟨contents, hsh, hs⟩ := exists_spells h.parts
  rw [ofDiagram_ok_iff, significantLines_eq, render, countingLines_ended hsh]
  exact ⟨_, hs, (modelOf_partsOf h).symm⟩

/-! ### What is read can be written -/

theorem isValue_of_lineValue? (h : lineValue? line = some value) (hq : '\'' ∉ line) : IsValue value := by
  rw [lineValue?] at h
  split at h
  · cases h
  · next hn =>
    cases h
    refine ⟨by simpa using hn, fun c hc => ?_⟩
    rw [String.toList_ofList] at hc
    have hb : isBlank c = false := by simpa using mem_takeWhile_imp hc
    have hm := mem_filter.mp ((dropWhile_suffix _).subset (( takeWhile_prefix _).subset hc))
    obtain ⟨hco, hs⟩ : c ≠ ',' ∧ c ≠ ';' := by simpa using hm.2
    exact ⟨hb, hco, hs, ne_of_mem_of_not_mem hm.1 hq⟩

theorem IsField.isFieldForm (h : IsField line field) : IsFieldForm field := by
  obtain ⟨name, type⟩ := field
  refine ⟨h.1, ?_⟩
  rintro type rfl
  exact h.2.1

theorem Counts.isCount {count : List Char} {one : String} (h : Counts count one) : IsCount (some one) := by
  cases h with
  | missing | one => exact Or.inr (Or.inl rfl)
  | many => exact Or.inr (Or.inr rfl)

theorem Part.Written.isWritable {p : List (List Char)} (h : part.Written p)
    (hq : ∀ line ∈ p, '\'' ∉ line) : part.IsWritable ∧ part.complete = part := by
  cases h with
  | @ofClass opening name t fields ho hin =>
    obtain ⟨-, -, -, -, hn, -⟩ := ho
    refine ⟨⟨hn, ?_⟩, rfl⟩
    clear hq
    induction hin with
    | nil => nofun
    | cons hl _ ih => exact forall_mem_cons.mpr ⟨hl.isFieldForm, ih⟩
  | @ofEnum opening name t ho hin =>
    obtain ⟨-, -, -, -, hn, -⟩ := ho
    refine ⟨⟨hn, fun v hv => ?_⟩, rfl⟩
    obtain ⟨line, hl, hr⟩ := mem_filterMap.mp hv
    exact isValue_of_lineValue? hr (hq line (by simp [hl]))
  | @ofComposition line c hl =>
    obtain ⟨o, part, ownerMultiplicity, partMultiplicity⟩ := c
    obtain ⟨how, hp, _, _, _, _, one, b, _, hon, _, hot, rfl, rfl, _⟩ := hl
    exact ⟨⟨how, hp, hon.isCount, hot.isCount⟩, rfl⟩

theorem Spells.isWritable (h : Spells parts lines) (hq : ∀ line ∈ lines, '\'' ∉ line) :
    ∀ part ∈ parts, part.IsWritable ∧ part.complete = part := by
  obtain ⟨ps, hp, rfl⟩ := h
  induction hp with
  | nil => nofun
  | cons hpa _ ih =>
    rw [flatten_cons, forall_mem_append] at hq
    exact forall_mem_cons.mpr ⟨hpa.isWritable hq.1, ih hq.2⟩

theorem isWritable_modelOf (h : ∀ part ∈ parts, part.IsWritable ∧ part.complete = part) :
    IsWritable (modelOf parts) ∧ complete (modelOf parts) = modelOf parts := by
  have hbl : ∀ block ∈ parts.filterMap Part.classBlock?, IsName block.1 ∧ ∀ field ∈ block.2, IsFieldForm field := by
    intro block hb
    obtain ⟨part, hp, hs⟩ := mem_filterMap.mp hb
    cases part with
    | ofClass name fs => cases hs; exact (h _ hp).1
    | ofEnum | ofComposition => cases hs
  have hv : ∀ block ∈ parts.filterMap Part.enumBlock?, IsName block.1 ∧ ∀ value ∈ block.2, IsValue value := by
    intro block hb
    obtain ⟨part, hp, hs⟩ := mem_filterMap.mp hb
    cases part with
    | ofEnum name values => cases hs; exact (h _ hp).1
    | ofClass | ofComposition => cases hs
  have hco : ∀ c ∈ parts.filterMap Part.composition?,
      (Part.ofComposition c).IsWritable ∧ completeComposition c = c := by
    intro c hc
    obtain ⟨part, hp, hs⟩ := mem_filterMap.mp hc
    cases part with
    | ofComposition b => cases hs; exact ⟨(h _ hp).1, Part.ofComposition.inj (h _ hp).2⟩
    | ofClass | ofEnum => cases hs
  constructor
  · refine ⟨?_, ?_, ?_, ?_⟩
    · have hk : (modelOf parts).classes.keys = (grouped (parts.filterMap Part.classBlock?)).keys := by
        simp [modelOf, named, OrderedMap.keys, Function.comp_def]
      rw [hk, keys_grouped]
      exact OrderedMap.nodup_eraseDups _
    · intro x he
      obtain ⟨group, -, rfl⟩ := mem_map.mp he
      rfl
    · exact (keys_grouped (parts.filterMap Part.enumBlock?)) ▸ OrderedMap.nodup_eraseDups _
    · intro part hp
      rcases mem_append.mp hp with hcl | hr
      · obtain ⟨x, he, rfl⟩ := mem_map.mp hcl
        obtain ⟨group, hg, rfl⟩ := mem_map.mp he
        exact forall_grouped hbl group hg
      · rcases mem_append.mp hr with hen | hcom
        · obtain ⟨group, hg, rfl⟩ := mem_map.mp hen
          exact forall_grouped hv group hg
        · obtain ⟨c, hc, rfl⟩ := mem_map.mp hcom
          exact (hco c hc).1
  · have hm : (modelOf parts).compositions.map completeComposition = (modelOf parts).compositions :=
      (map_congr_left fun c hc => (hco c hc).2).trans (map_id _)
    rw [complete, hm]

theorem complete_eq_self (h : ∀ c ∈ m.compositions, c.ownerMultiplicity ≠ none ∧ c.partMultiplicity ≠ none) :
    complete m = m := by
  have hm : m.compositions.map completeComposition = m.compositions := by
    refine (map_congr_left fun c hc => ?_).trans (map_id _)
    obtain ⟨ho, hp⟩ := h c hc
    obtain ⟨one, hon⟩ := Option.ne_none_iff_exists'.mp ho
    obtain ⟨b, hot⟩ := Option.ne_none_iff_exists'.mp hp
    obtain ⟨o, part, ownerMultiplicity, partMultiplicity⟩ := c
    subst hon hot
    rfl
  rw [complete, hm]

/-! ### Diagrams and models -/

/-- A text is a diagram just if its lines that count spell parts, and its model is what they describe; any other text
    has a fault of its form. What is read can be written. A model that can be written is read back from its
    diagram, with the multiplicities that it lacks read as one. -/
theorem ofDiagram_accepts_grammar : (∀ s : String,
      (∀ m, ofDiagram s = .ok m ↔ ∃ parts, Spells parts (countingLines s) ∧ m = modelOf parts) ∧
      ((¬∃ parts, Spells parts (countingLines s)) → ∃ failure, ofDiagram s = .error failure ∧ failure.kind = .format)) ∧
    (∀ s m, ofDiagram s = .ok m → IsWritable m ∧ complete m = m) ∧
    ∀ m, IsWritable m → ofDiagram (render m) = .ok (complete m) ∧
      ((∀ c ∈ m.compositions, c.ownerMultiplicity ≠ none ∧ c.partMultiplicity ≠ none) →
        ofDiagram (render m) = .ok m) := by
  have hiff : ∀ s m, ofDiagram s = .ok m ↔ ∃ parts, Spells parts (countingLines s) ∧ m = modelOf parts := by
    intro s m
    rw [← significantLines_eq]
    exact ofDiagram_ok_iff s m
  refine ⟨fun s => ⟨hiff s, fun hnone => ?_⟩, fun s m hread => ?_, fun m hm => ⟨ofDiagram_render hm, fun hfull => ?_⟩⟩
  · cases hread : ofDiagram s with
    | ok m =>
      obtain ⟨parts, hspells, -⟩ := (hiff s m).mp hread
      exact absurd ⟨parts, hspells⟩ hnone
    | error failure => exact ⟨failure, rfl, ofDiagram_error_format hread⟩
  · obtain ⟨parts, hspells, rfl⟩ := (hiff s m).mp hread
    exact isWritable_modelOf (hspells.isWritable fun line hline => not_quote_of_mem_countingLines hline)
  · rw [ofDiagram_render hm, complete_eq_self hfull]

/-- A model with values that look like a closing line and like a mark around a diagram. -/
def strangeModel : ClassModel where
  classes := [("Order", ⟨"Order", [⟨"id", none⟩, ⟨"lines", some "Line"⟩]⟩), ("Line", ⟨"Line", []⟩)]
  enums := [("State", ["\x7d", "@enduml"])]
  compositions := [⟨"Order", "Line", some "1", some "many"⟩]

theorem strangeModel_isWritable : IsWritable strangeModel := ⟨by decide, by decide, by decide, by decide⟩

theorem ofDiagram_accepts_grammar_strange :
    IsWritable strangeModel ∧ ofDiagram (render strangeModel) = .ok strangeModel :=
  ⟨strangeModel_isWritable, (ofDiagram_accepts_grammar.2.2 strangeModel strangeModel_isWritable).2 (by decide)⟩

end ProcessForge.ClassModel
