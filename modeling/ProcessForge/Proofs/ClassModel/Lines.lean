import ProcessForge.ClassModel.Diagram
import ProcessForge.Proofs.Text.Trim

/-! The lines of class diagrams. Each kind of line has a written form: words, blanks and fixed marks one after the
    other. Main statements: a reader of lines accepts exactly the lines of the written form, and gives back what
    they say. -/

namespace ProcessForge.ClassModel

open List Option Bool Text

variable {c : Char} {name one : String} {gap rest tl cs line count : List Char}

/-! ### Characters -/

def IsGap (cs : List Char) : Prop := ∀ c ∈ cs, isBlank c = true

/-- Names: letters, digits and underscores. -/
def IsName (name : String) : Prop := name ≠ "" ∧ ∀ c ∈ name.toList, isWord c = true

/-- Names that begin with an ASCII letter or an underscore. -/
def IsIdentifier (name : String) : Prop := IsName name ∧ ∀ c ∈ name.toList.head?, c.isAlpha = true ∨ c = '_'

def blankPoints : List Nat := [9, 10, 11, 12, 13, 28, 29, 30, 31, 32, 0x85, 0xA0, 0x1680] ++ range' 0x2000 11
    ++ [0x2028, 0x2029, 0x202F, 0x205F, 0x3000]

theorem toNat_mem_blankPoints (h : isBlank c) : c.toNat ∈ blankPoints := by
  simp only [isBlank, or_eq_true, and_eq_true, decide_eq_true_eq, beq_iff_eq] at h
  simp only [blankPoints, mem_append, mem_cons, not_mem_nil, mem_range'_1]
  omega

theorem isWord_of_isBlank (h : isBlank c) : isWord c = false := by
  have hp : (blankPoints.all fun n =>
      if n < 128 then !((Char.ofNat n).isAlphanum || Char.ofNat n == '_')
      else !Text.inRanges wordRanges n) := by decide +kernel
  have hc := all_eq_true.mp hp _ (toNat_mem_blankPoints h)
  rw [isWord]
  split at hc
  · next hl =>
    rw [if_pos hl]
    simpa [Char.ofNat_toNat] using hc
  · next hl =>
    rw [if_neg hl]
    simpa using hc

theorem isBlank_of_isWord (h : isWord c) : isBlank c = false := by
  cases hb : isBlank c with
  | false => rfl
  | true => rw [isWord_of_isBlank hb] at h; cases h

theorem IsName.ne_nil (h : IsName name) : name.toList ≠ [] := by
  simpa using h.1

/-- What stands behind a name does not belong to it. -/
def EndsWord (rest : List Char) : Prop := ∀ c ∈ rest.head?, isWord c = false

theorem endsWord_gap (h : IsGap gap) (hr : EndsWord tl) : EndsWord (gap ++ tl) := by
  cases gap with
  | nil => exact hr
  | cons c gap =>
    rintro d ⟨⟩
    exact isWord_of_isBlank (h c (mem_cons_self ..))

def EndsGap (rest : List Char) : Prop := ∀ c ∈ rest.head?, isBlank c = false

theorem IsName.endsGap (h : IsName name) (tl : List Char) : EndsGap (name.toList ++ tl) := by
  obtain ⟨c, cs, hc⟩ := exists_cons_of_ne_nil h.ne_nil
  rw [hc]
  rintro d ⟨⟩
  exact isBlank_of_isWord (h.2 c (by rw [hc]; exact mem_cons_self ..))

/-! ### Words and gaps -/

theorem skipBlank_append (hg : IsGap gap) (hr : EndsGap rest) : skipBlank (gap ++ rest) = rest := by
  rw [skipBlank, dropWhile_append_of_pos hg, dropWhile_eq_self hr]

theorem exists_skipBlank (cs : List Char) : ∃ gap, IsGap gap ∧ cs = gap ++ skipBlank cs ∧ EndsGap (skipBlank cs) :=
  ⟨cs.takeWhile isBlank, fun _ hc => mem_takeWhile_imp hc, (takeWhile_append_dropWhile ..).symm,
    head?_dropWhile isBlank cs⟩

theorem readWord?_append (h : IsName name) (hr : EndsWord tl) : readWord? (name.toList ++ tl) = some (name, tl) := by
  have ht : tl.takeWhile isWord = [] := by
    cases tl with
    | nil => rfl
    | cons c tl => simp [hr c rfl]
  rw [readWord?, takeWhile_append_of_pos h.2, dropWhile_append_of_pos h.2, ht, dropWhile_eq_self hr]
  simp [h.1]

theorem eq_of_readWord? (h : readWord? cs = some (name, rest)) :
    IsName name ∧ EndsWord rest ∧ cs = name.toList ++ rest := by
  rw [readWord?] at h
  split at h
  · cases h
  · next hn =>
    cases h
    refine ⟨⟨?_, ?_⟩, head?_dropWhile isWord cs, ?_⟩
    · simpa using hn
    · intro c hc
      rw [String.toList_ofList] at hc
      exact mem_takeWhile_imp hc
    · rw [String.toList_ofList, takeWhile_append_dropWhile]

theorem readIdentifier?_append (h : IsIdentifier name) (hre : EndsWord tl) :
    readIdentifier? (name.toList ++ tl) = some (name, tl) := by
  have hr := readWord?_append h.1 hre
  obtain ⟨c, cs, hc⟩ := exists_cons_of_ne_nil h.1.ne_nil
  have hf := h.2 c (by rw [hc]; rfl)
  rw [hc, cons_append] at hr ⊢
  rw [readIdentifier?, if_pos (by simpa using hf)]
  exact hr

theorem eq_of_readIdentifier? (h : readIdentifier? cs = some (name, rest)) :
    IsIdentifier name ∧ EndsWord rest ∧ cs = name.toList ++ rest := by
  unfold readIdentifier? at h
  split at h
  · next c cs =>
    split at h
    · next hf =>
      obtain ⟨hn, he, heq⟩ := eq_of_readWord? h
      refine ⟨⟨hn, ?_⟩, he, heq⟩
      obtain ⟨d, ds, hd⟩ := exists_cons_of_ne_nil hn.ne_nil
      rw [hd] at heq
      rw [hd, ← (cons.inj heq).1]
      simpa using hf
    · cases h
  · cases h

/-! ### Openings -/

/-- A line that opens a block: a keyword, blanks, a name, and an opening brace. -/
def Opens (keyword : String) (line : List Char) (name : String) : Prop :=
  ∃ gap space, gap ≠ [] ∧ IsGap gap ∧ IsName name ∧ IsGap space ∧
    line = keyword.toList ++ (gap ++ (name.toList ++ (space ++ ['\x7b'])))

theorem endsWord_brace : EndsWord ['\x7b'] := by
  rintro c ⟨⟩
  decide

theorem endsGap_brace : EndsGap ['\x7b'] := by
  rintro c ⟨⟩
  decide

theorem readOpening?_iff {keyword : String} : readOpening? keyword line = some name ↔ Opens keyword line name := by
  constructor
  · intro h
    obtain ⟨tl, hr, h⟩ := bind_eq_some_iff.mp h
    rw [eq_append_of_dropPrefix? hr]
    split at h
    · next c cs =>
      split at h
      · next hb =>
        obtain ⟨⟨w, post⟩, hw, h⟩ := bind_eq_some_iff.mp h
        simp only at h
        split at h
        · next hbr =>
          cases h
          obtain ⟨gap, hg, hc, -⟩ := exists_skipBlank (c :: cs)
          obtain ⟨s, hs, ha, -⟩ := exists_skipBlank post
          obtain ⟨hn, -, heq⟩ := eq_of_readWord? hw
          rw [beq_iff_eq.mp hbr] at ha
          refine ⟨gap, s, ?_, hg, hn, hs, ?_⟩
          · rintro rfl
            -- without a gap the name would begin with the blank
            have he := hn.endsGap post
            rw [← heq, ← nil_append (skipBlank (c :: cs)), ← hc] at he
            rw [he c rfl] at hb
            cases hb
          · rw [hc, heq, ← ha]
        · cases h
      · cases h
    · cases h
  · rintro ⟨gap, s, hne, hg, hn, hs, rfl⟩
    obtain ⟨c, cs, rfl⟩ := exists_cons_of_ne_nil hne
    have hsk := skipBlank_append hg (hn.endsGap (s ++ ['\x7b']))
    have hre := readWord?_append hn (endsWord_gap hs endsWord_brace)
    rw [readOpening?, dropPrefix?_append]
    simp only [bind_eq_bind, bind_some, cons_append, hg c (mem_cons_self ..), if_true]
    rw [← cons_append, hsk, hre]
    simp [skipBlank_append hs endsGap_brace]

/-! ### Fields -/

/-- A line that states a field: a name, and a type behind a colon if it has one. -/
def IsField (line : List Char) (field : ClassField) : Prop := IsIdentifier field.name ∧
    match field.type with
    | none => line = field.name.toList
    | some type => IsIdentifier type ∧ ∃ gap space, IsGap gap ∧ IsGap space ∧
        line = field.name.toList ++ (gap ++ ':' :: (space ++ type.toList))

theorem endsWord_colon (tl : List Char) : EndsWord (':' :: tl) := by
  rintro c ⟨⟩
  decide

theorem endsGap_colon (tl : List Char) : EndsGap (':' :: tl) := by
  rintro c ⟨⟩
  decide

theorem endsWord_nil : EndsWord [] := nofun

theorem eq_nil_of_trimmed {f : List Char} (h : trimChars (f ++ gap) = f ++ gap) (hg : IsGap gap) : gap = [] := by
  by_contra hn
  obtain ⟨init, c, rfl⟩ : ∃ init c, gap = init ++ [c] :=
    ⟨gap.dropLast, gap.getLast hn, (dropLast_concat_getLast hn).symm⟩
  have hl := getLast?_trimBy isBlank (f ++ (init ++ [c]))
  rw [← trimChars, h] at hl
  have hc := hg c (by simp)
  rw [hl c (by simp)] at hc
  cases hc

theorem readField?_iff (htr : trimChars line = line) {field : ClassField} :
    readField? line = some field ↔ IsField line field := by
  constructor
  · intro hl
    obtain ⟨⟨name, tl⟩, hr, h⟩ := bind_eq_some_iff.mp hl
    obtain ⟨hn, -, rfl⟩ := eq_of_readIdentifier? hr
    simp only at h
    obtain ⟨gap, hg, hcu, -⟩ := exists_skipBlank tl
    split at h
    · next hni =>
      cases h
      rw [hni, append_nil] at hcu
      subst hcu
      rw [eq_nil_of_trimmed htr hg]
      exact ⟨hn, append_nil _⟩
    · next post hc =>
      obtain ⟨⟨type, behind⟩, ht, h⟩ := bind_eq_some_iff.mp h
      obtain ⟨s, hs, ha, -⟩ := exists_skipBlank post
      obtain ⟨ht, -, heq⟩ := eq_of_readIdentifier? ht
      simp only at h
      split at h
      · next hen =>
        cases h
        rw [List.isEmpty_iff.mp hen, append_nil] at heq
        refine ⟨hn, ht, gap, s, hg, hs, ?_⟩
        rw [hcu, hc, ← heq, ← ha]
      · cases h
    · cases h
  · rintro ⟨hn, ht⟩
    obtain ⟨name, type⟩ := field
    cases type with
    | none =>
      have hr := readIdentifier?_append hn endsWord_nil
      rw [append_nil] at hr
      rw [readField?, ht, hr]
      rfl
    | some type =>
      obtain ⟨ht, gap, s, hg, hs, rfl⟩ := ht
      have hc := endsWord_gap hg (endsWord_colon (s ++ type.toList))
      have he := ht.1.endsGap []
      have hr := readIdentifier?_append ht endsWord_nil
      rw [append_nil] at he hr
      rw [readField?, readIdentifier?_append hn hc]
      simp only [bind_eq_bind, bind_some, skipBlank_append hg (endsGap_colon _), skipBlank_append hs he, hr]
      rfl

/-! ### Compositions -/

/-- A multiplicity with the blanks behind it; one that is not written is one. -/
inductive Counts : List Char → String → Prop
  | missing : Counts [] "1"
  | one {space : List Char} (h : IsGap space) : Counts ('"' :: '1' :: '"' :: space) "1"
  | many {space : List Char} (h : IsGap space) : Counts ('"' :: 'm' :: 'a' :: 'n' :: 'y' :: '"' :: space) "many"

/-- A line that states a composition: the owner, the part, and between them a diamond with the multiplicities of
    both. -/
def IsComposition (line : List Char) (c : Composition) : Prop :=
  IsName c.owner ∧ IsName c.part ∧ ∃ gap count space count' one other,
    IsGap gap ∧ Counts count one ∧ IsGap space ∧ Counts count' other ∧
    c.ownerMultiplicity = some one ∧ c.partMultiplicity = some other ∧
    line = c.owner.toList ++ (gap ++ (count ++ '*' :: '-' :: '-' :: (space ++ (count' ++ c.part.toList))))

/-- Marks that stand neither in a word nor in a gap, nor do they open a multiplicity. -/
def StartsPlain (rest : List Char) : Prop := EndsGap rest ∧ rest.head? ≠ some '"'

theorem startsPlain_diamond (tl : List Char) : StartsPlain ('*' :: tl) := by
  refine ⟨?_, by simp⟩
  rintro c ⟨⟩
  decide

theorem IsName.startsPlain (h : IsName name) : StartsPlain name.toList := by
  have he := h.endsGap []
  rw [append_nil] at he
  refine ⟨he, fun hq => ?_⟩
  exact absurd (h.2 '"' (mem_of_mem_head? hq)) (by decide)

theorem Counts.endsGap (h : Counts count one) (hr : StartsPlain tl) : EndsGap (count ++ tl) := by
  cases h with
  | missing => exact hr.1
  | one | many =>
    rintro c ⟨⟩
    decide

theorem Counts.endsWord (h : Counts count one) (hr : EndsWord tl) : EndsWord (count ++ tl) := by
  cases h with
  | missing => exact hr
  | one | many =>
    rintro c ⟨⟩
    decide

theorem readMultiplicity_append (h : Counts count one) (hr : StartsPlain tl) :
    ∃ read, readMultiplicity (count ++ tl) = (read, tl) ∧ read.getD "1" = one := by
  cases h with
  | missing =>
    have hd : ∀ mark, Text.dropPrefix? ('"' :: mark) tl = none := by
      intro mark
      cases tl with
      | nil => rfl
      | cons c tl =>
        have hc : '"' ≠ c := fun heq => hr.2 (by rw [heq]; rfl)
        simp [Text.dropPrefix?, hc]
    have hm : Text.dropPrefix? "\"many\"".toList tl = none := hd _
    exact ⟨none, by simp [readMultiplicity, hd], rfl⟩
  | @one s hs =>
    have hd : Text.dropPrefix? ['"', '1', '"'] ('"' :: '1' :: '"' :: s ++ tl) = some (s ++ tl) :=
      dropPrefix?_append ['"', '1', '"'] (s ++ tl)
    exact ⟨some "1", by simp only [readMultiplicity, hd, skipBlank_append hs hr.1], rfl⟩
  | @many s hs =>
    have ho : Text.dropPrefix? ['"', '1', '"'] ('"' :: 'm' :: 'a' :: 'n' :: 'y' :: '"' :: s ++ tl) = none := rfl
    have hd : Text.dropPrefix? "\"many\"".toList ('"' :: 'm' :: 'a' :: 'n' :: 'y' :: '"' :: s ++ tl) = some (s ++ tl) :=
      dropPrefix?_append "\"many\"".toList (s ++ tl)
    exact ⟨some "many", by simp only [readMultiplicity, ho, hd, skipBlank_append hs hr.1], rfl⟩

theorem eq_of_readMultiplicity {read : Option String} (h : readMultiplicity cs = (read, rest)) :
    ∃ count, Counts count (read.getD "1") ∧ cs = count ++ rest := by
  rw [readMultiplicity] at h
  split at h
  · next post hd =>
    cases h
    obtain ⟨s, hs, ha, -⟩ := exists_skipBlank post
    refine ⟨_, Counts.one hs, (eq_append_of_dropPrefix? hd).trans ?_⟩
    exact congrArg (['"', '1', '"'] ++ ·) ha
  · split at h
    · next post hd =>
      cases h
      obtain ⟨s, hs, ha, -⟩ := exists_skipBlank post
      refine ⟨_, Counts.many hs, (eq_append_of_dropPrefix? hd).trans ?_⟩
      exact congrArg ("\"many\"".toList ++ ·) ha
    · cases h
      exact ⟨[], Counts.missing, rfl⟩

theorem endsWord_diamond (tl : List Char) : EndsWord ('*' :: tl) := by
  rintro c ⟨⟩
  decide

theorem readComposition?_iff {c : Composition} : readComposition? line = some c ↔ IsComposition line c := by
  constructor
  · intro hl
    obtain ⟨⟨o, tl⟩, hr, h⟩ := bind_eq_some_iff.mp hl
    obtain ⟨ho, -, rfl⟩ := eq_of_readWord? hr
    obtain ⟨gap, hg, hcu, -⟩ := exists_skipBlank tl
    rcases hc : readMultiplicity (skipBlank tl) with ⟨one, behind⟩
    simp only [hc] at h
    obtain ⟨count, hw, hb⟩ := eq_of_readMultiplicity hc
    obtain ⟨post, hd, h⟩ := bind_eq_some_iff.mp h
    obtain ⟨s, hs, ha, -⟩ := exists_skipBlank post
    rcases hc' : readMultiplicity (skipBlank post) with ⟨b, last⟩
    simp only [hc'] at h
    obtain ⟨count', hw', hla⟩ := eq_of_readMultiplicity hc'
    obtain ⟨⟨p, final⟩, hp, h⟩ := bind_eq_some_iff.mp h
    obtain ⟨hp, -, hf⟩ := eq_of_readWord? hp
    split at h
    · next he =>
      cases h
      have hn : final = [] := List.isEmpty_iff.mp he
      rw [hn, append_nil] at hf
      refine ⟨ho, hp, gap, count, s, count', _, _, hg, hw, hs, hw', rfl, rfl, ?_⟩
      rw [← hf, ← hla, ← ha, hcu, hb, eq_append_of_dropPrefix? hd]
      rfl
    · cases h
  · rintro ⟨ho, hp, gap, count, s, count', one, b, hg, hc, hs, hc', hon, hot, rfl⟩
    obtain ⟨o, p, _, _⟩ := c
    subst hon hot
    -- from the left to the right: each reader stops where the next piece begins
    have hd := startsPlain_diamond ('-' :: '-' :: (s ++ (count' ++ p.toList)))
    obtain ⟨read, hr, rfl⟩ := readMultiplicity_append hc hd
    obtain ⟨read', hr', rfl⟩ := readMultiplicity_append hc' hp.startsPlain
    have ho := readWord?_append ho (endsWord_gap hg (hc.endsWord
      (endsWord_diamond ('-' :: '-' :: (s ++ (count' ++ p.toList))))))
    have hp' := readWord?_append hp endsWord_nil
    rw [append_nil] at hp'
    have hdr : Text.dropPrefix? ['*', '-', '-'] ('*' :: '-' :: '-' :: (s ++ (count' ++ p.toList)))
        = some (s ++ (count' ++ p.toList)) := dropPrefix?_append ['*', '-', '-'] _
    rw [readComposition?, ho]
    simp only [bind_eq_bind, bind_some, skipBlank_append hg (hc.endsGap hd), hr, hdr,
      skipBlank_append hs (hc'.endsGap hp.startsPlain), hr', hp']
    rfl

/-! ### Values -/

/-- The first row of characters other than blanks, once commas and semicolons are deleted. -/
def leadingToken (line : List Char) : List Char :=
  ((line.filter fun c => c ≠ ',' ∧ c ≠ ';').dropWhile isBlank).takeWhile fun c => !Text.isBlank c

/-- The value that a line contributes to an enumeration. -/
def lineValue? (line : List Char) : Option String :=
  if leadingToken line = [] then none else some (String.ofList (leadingToken line))

theorem head?_words (cs : List Char) :
    (words cs).head?.getD [] = (cs.dropWhile isBlank).takeWhile (fun c => !Text.isBlank c) ∧
      ∀ w ∈ (words cs).head?, w ≠ [] := by
  fun_induction words cs with
  | case1 => simp
  | case2 c tl hb ih => simpa [hb] using ih
  | case3 c hb => simp [hb]
  | case4 c hb d tail hd ih => simp [hb, hd]
  | case5 c hb d tail hd hn ih =>
    rw [hn] at ih
    simp [hd] at ih
  | case6 c hb d tail hd w ws hwo ih =>
    rw [hwo] at ih ⊢
    have hw : w = (d :: tail).takeWhile fun c => !Text.isBlank c := by
      simpa [dropWhile_cons_of_neg hd] using ih.1
    simp [hb, hw]

theorem firstToken?_eq (line : List Char) : firstToken? line = lineValue? line := by
  have hf : (line.filter fun c => c != ',' && c != ';') = line.filter fun c => c ≠ ',' ∧ c ≠ ';' := by
    refine filter_congr fun c _ => ?_
    rw [Bool.eq_iff_iff]
    simp
  obtain ⟨hh, hn⟩ := head?_words (line.filter fun c => c ≠ ',' ∧ c ≠ ';')
  rw [firstToken?, hf, lineValue?, leadingToken, ← hh]
  cases hw : (words (line.filter fun c => c ≠ ',' ∧ c ≠ ';')).head? with
  | none => simp
  | some w => simp [hn w hw]

/-! ### Frames -/

/-- Marks around a diagram, in any letter case. -/
def IsFrame (line : List Char) : Prop :=
  line.map Char.toLower = "@startuml".toList ∨ line.map Char.toLower = "@enduml".toList

def frameLetters : List Char := "@startuml".toList ++ "@enduml".toList

/-- Runs of letters beyond ASCII have small forms there, but for one sign, whose small form is no letter of a mark. -/
theorem lowerRuns_spec : (lowerRuns.all fun run =>
    run.last < 128 || (128 ≤ run.first && 128 ≤ run.first + run.shift) ||
      (run.first == 0x212A && run.last == 0x212A && run.shift == -8383)) := by
  decide +kernel

theorem not_mem_frameLetters (h : 128 ≤ c.toNat ∨ c.toNat = 0) : c ∉ frameLetters := by
  intro hm
  have hl : (frameLetters.all fun d => d.toNat < 128 && d.toNat != 0) := by decide
  have hc := all_eq_true.mp hl c hm
  simp only [and_eq_true, decide_eq_true_eq, bne_iff_ne] at hc
  omega

theorem toNat_ofNat_cases (n : Nat) : (Char.ofNat n).toNat = n ∨ (Char.ofNat n).toNat = 0 := by
  by_cases h : n.isValidChar
  · left
    rw [Char.ofNat, dif_pos h]
    rfl
  · right
    rw [Char.ofNat, dif_neg h]
    rfl

theorem shiftCase_lowerRuns (h : 128 ≤ c.toNat) : shiftCase lowerRuns c ∉ frameLetters := by
  rw [shiftCase]
  split
  · next run hf =>
    have hr := all_eq_true.mp lowerRuns_spec run (mem_of_find?_eq_some hf)
    have hh : run.holds c.toNat := by simpa using find?_some hf
    simp only [CaseRun.holds, and_eq_true, decide_eq_true_eq] at hh
    simp only [or_eq_true, and_eq_true, decide_eq_true_eq, beq_iff_eq] at hr
    rcases hr with (hl | ⟨-, hs⟩) | ⟨⟨hfi, hl⟩, hs⟩
    · omega
    · refine not_mem_frameLetters ?_
      rcases toNat_ofNat_cases (Int.toNat (c.toNat + run.shift)) with heq | heq
      · exact Or.inl (by omega)
      · exact Or.inr heq
    · have hc : Int.toNat (c.toNat + run.shift) = 107 := by omega
      rw [hc]
      decide
  · exact not_mem_frameLetters (Or.inl h)

theorem exists_mem_lowerAt (h : 128 ≤ c.toNat) (pre post : List Char) : ∃ d ∈ lowerAt pre c post, d ∉ frameLetters := by
  rw [lowerAt, if_neg (by omega)]
  split
  · refine ⟨_, mem_singleton_self _, not_mem_frameLetters (Or.inl ?_)⟩
    split <;> decide
  · split
    · exact ⟨'\u0307', by simp, by decide⟩
    · exact ⟨_, mem_singleton_self _, shiftCase_lowerRuns h⟩

theorem ascii_of_lowerChars (h : ∀ d ∈ lowerChars cs, d ∈ frameLetters) : ∀ c ∈ cs, c.toNat < 128 := by
  have hg : ∀ (cs pre : List Char), (∀ d ∈ lowerAfter pre cs, d ∈ frameLetters) → ∀ c ∈ cs, c.toNat < 128 := by
    intro cs
    induction cs with
    | nil => nofun
    | cons c cs ih =>
      intro pre ha d hd
      rcases mem_cons.mp hd with rfl | hd
      · by_contra hge
        obtain ⟨e, he, hb⟩ := exists_mem_lowerAt (Nat.le_of_not_lt hge) pre cs
        exact hb (ha e (mem_append_left _ he))
      · exact ih (c :: pre) (fun e he => ha e (mem_append_right _ he)) d hd
  exact hg cs [] h

theorem lowerChars_eq_iff {mark : List Char} (hm : ∀ c ∈ mark, c ∈ frameLetters) :
    lowerChars line = mark ↔ line.map Char.toLower = mark := by
  constructor
  · intro h
    have ha : ∀ c ∈ line, c.toNat < 128 := ascii_of_lowerChars (by rw [h]; exact hm)
    rw [← lowerChars_of_ascii ha, h]
  · intro h
    refine (lowerChars_of_ascii fun c hc => ascii_of_toLower ?_).trans h
    have hs : c.toLower ∈ frameLetters := hm _ (h ▸ mem_map_of_mem hc)
    by_contra hg
    exact not_mem_frameLetters (Or.inl (Nat.le_of_not_lt hg)) hs

theorem isFrameLine_iff : isFrameLine line ↔ IsFrame line := by
  have hs : ∀ c ∈ "@startuml".toList, c ∈ frameLetters := fun c hc => mem_append_left _ hc
  have he : ∀ c ∈ "@enduml".toList, c ∈ frameLetters := fun c hc => mem_append_right _ hc
  rw [isFrameLine, IsFrame, or_eq_true, beq_iff_eq, beq_iff_eq, lowerChars_eq_iff hs, lowerChars_eq_iff he]

end ProcessForge.ClassModel
