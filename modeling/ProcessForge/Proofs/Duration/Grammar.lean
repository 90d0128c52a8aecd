import ProcessForge.Duration
import ProcessForge.Proofs.Text.Trim

/-! The texts of durations. A duration is a number of weeks, or it has years, months and days and, behind the letter T,
    hours, minutes and seconds. Parts may be missing, but not all of them, and not all behind a T. Main statement: the
    valid texts are those that spell a duration, and none of them spells two. -/

namespace ProcessForge.Duration

open List Text

/-- Digits of any script, at least one. -/
def IsNumber (digits : List Char) : Prop := digits ≠ [] ∧ ∀ c ∈ digits, isDigit c = true

/-- A part is missing, or it is a number with a letter behind it. -/
inductive SpellsPart (letter : Char) : Option (List Char) → List Char → Prop
  | missing : SpellsPart letter none []
  | number {digits : List Char} : IsNumber digits → SpellsPart letter (some digits) (digits ++ [letter])

/-- Seconds may have a fraction. -/
inductive SpellsSeconds : Option (List Char × List Char) → List Char → Prop
  | missing : SpellsSeconds none []
  | whole {digits : List Char} : IsNumber digits → SpellsSeconds (some (digits, [])) (digits ++ ['S'])
  | fraction {digits fraction : List Char} : IsNumber digits → IsNumber fraction →
      SpellsSeconds (some (digits, fraction)) (digits ++ '.' :: (fraction ++ ['S']))

/-- Years, months and days. -/
def SpellsDate (d : Duration) (cs : List Char) : Prop := ∃ years months days, SpellsPart 'Y' d.years years ∧
  SpellsPart 'M' d.months months ∧ SpellsPart 'D' d.days days ∧ cs = years ++ (months ++ days)

/-- Hours, minutes and seconds. -/
def SpellsTime (d : Duration) (cs : List Char) : Prop := ∃ hours minutes seconds, SpellsPart 'H' d.hours hours ∧
  SpellsPart 'M' d.minutes minutes ∧ SpellsSeconds d.seconds seconds ∧ cs = hours ++ (minutes ++ seconds)

/-- The grammar of durations. -/
inductive Spells : Duration → List Char → Prop
  | weeks {digits : List Char} : IsNumber digits → Spells { weeks := some digits } ('P' :: (digits ++ ['W']))
  | date {d : Duration} {date : List Char} : d.weeks = none → SpellsDate d date → SpellsTime d [] → date ≠ [] →
      Spells d ('P' :: date)
  | time {d : Duration} {date time : List Char} : d.weeks = none → SpellsDate d date → SpellsTime d time → time ≠ [] →
      Spells d ('P' :: (date ++ 'T' :: time))

variable {letter other c : Char} {digits ds cs rest tl text s : List Char} {part : Option (List Char)}
  {seconds : Option (List Char × List Char)} {d : Duration}

/-! ### One part -/

theorem IsNumber.takeWhile_append (h : IsNumber digits) (hc : isDigit c = false) (tl : List Char) :
    (digits ++ c :: tl).takeWhile isDigit = digits := by
  rw [takeWhile_append_of_pos h.2, takeWhile_cons_of_neg (by simp [hc]), append_nil]

theorem IsNumber.dropWhile_append (h : IsNumber ds) (hc : isDigit c = false) (rest : List Char) :
    (ds ++ c :: rest).dropWhile isDigit = c :: rest := by
  rw [dropWhile_append_of_pos h.2, dropWhile_cons_of_neg (by simp [hc])]

theorem isNumber_takeWhile (h : (cs.takeWhile isDigit).isEmpty = false) : IsNumber (cs.takeWhile isDigit) :=
  ⟨by simpa using h, fun _ => mem_takeWhile_imp⟩

theorem readPart_number (h : IsNumber ds) (hc : isDigit c = false) (tl : List Char) : readPart letter (ds ++ c :: tl)
      = if c = letter then (some ds, tl) else (none, ds ++ c :: tl) := by
  rw [readPart, h.takeWhile_append hc, h.dropWhile_append hc]
  simp [h.1]

theorem readPart_of_head (h : ∀ c ∈ cs.head?, isDigit c = false) : readPart letter cs = (none, cs) := by
  cases cs with
  | nil => rfl
  | cons c tl =>
    have hc : isDigit c = false := h c rfl
    simp [readPart, hc]

theorem spells_of_readPart (h : readPart letter cs = (part, rest)) :
    ∃ s, SpellsPart letter part s ∧ cs = s ++ rest := by
  have hc := takeWhile_append_dropWhile (p := isDigit) (l := cs)
  unfold readPart at h
  dsimp only at h
  split at h
  · next c post hdr =>
    split at h
    · next hp =>
      rw [Bool.and_eq_true, beq_iff_eq, Bool.not_eq_true'] at hp
      obtain ⟨rfl, hd⟩ := hp
      cases h
      exact ⟨_, .number (isNumber_takeWhile hd), by rw [append_assoc, singleton_append, ← hdr, hc]⟩
    · cases h
      exact ⟨[], .missing, rfl⟩
  · cases h
    exact ⟨[], .missing, rfl⟩

/-- A part that is spelled is read; if it is missing, the text must not go on with one. -/
theorem SpellsPart.read (h : SpellsPart letter part s) (hl : isDigit letter = false)
    (hr : readPart letter tl = (none, tl)) : readPart letter (s ++ tl) = (part, tl) := by
  cases h with
  | missing => exact hr
  | number hd => rw [append_assoc, singleton_append, readPart_number hd hl, if_pos rfl]

theorem SpellsPart.skip (h : SpellsPart other part s) (ho : isDigit other = false) (hn : other ≠ letter)
    (hr : readPart letter tl = (none, tl)) : readPart letter (s ++ tl) = (none, s ++ tl) := by
  cases h with
  | missing => exact hr
  | number hd => rw [append_assoc, singleton_append, readPart_number hd ho, if_neg hn]

/-! ### Seconds -/

theorem spells_of_readSeconds (h : readSeconds cs = (seconds, rest)) :
    ∃ s, SpellsSeconds seconds s ∧ cs = s ++ rest := by
  have hc := takeWhile_append_dropWhile (p := isDigit) (l := cs)
  have hm : (none, cs) = (seconds, rest) → ∃ s, SpellsSeconds seconds s ∧ cs = s ++ rest := by
    intro h
    cases h
    exact ⟨[], .missing, rfl⟩
  unfold readSeconds at h
  dsimp only at h
  split at h
  · exact hm h
  · next he =>
    have hd := isNumber_takeWhile ((Bool.not_eq_true _).mp he)
    split at h
    · next post hdr =>
      cases h
      exact ⟨_, .whole hd, by rw [append_assoc, singleton_append, ← hdr, hc]⟩
    · next t hdr =>
      have hin := takeWhile_append_dropWhile (p := isDigit) (l := t)
      split at h
      · next post ha =>
        split at h
        · exact hm h
        · next hf =>
          cases h
          refine ⟨_, .fraction hd (isNumber_takeWhile ((Bool.not_eq_true _).mp hf)), ?_⟩
          rw [append_assoc, cons_append, append_assoc, singleton_append, ← ha, hin, ← hdr, hc]
      · exact hm h
    · exact hm h

theorem SpellsSeconds.read (h : SpellsSeconds seconds s) : readSeconds s = (seconds, []) := by
  have hS : isDigit 'S' = false := by decide
  have hdo : isDigit '.' = false := by decide
  cases h with
  | missing => rfl
  | whole hd =>
    rw [readSeconds, hd.takeWhile_append hS, hd.dropWhile_append hS]
    simp [hd.1]
  | fraction hd hf =>
    rw [readSeconds, hd.takeWhile_append hdo, hd.dropWhile_append hdo]
    simp [hf.takeWhile_append hS, hf.dropWhile_append hS, hd.1, hf.1]

theorem SpellsSeconds.skip (h : SpellsSeconds seconds s) (hS : 'S' ≠ letter) (hdo : '.' ≠ letter) :
    readPart letter s = (none, s) := by
  cases h with
  | missing => rfl
  | whole hd => rw [readPart_number hd (by decide), if_neg hS]
  | fraction hd _ => rw [readPart_number hd (by decide), if_neg hdo]

/-! ### All parts -/

theorem spells_of_readTime {date : Duration} (h : readTime date cs = (d, tl)) :
    (∃ time, SpellsTime d time ∧ cs = time ++ tl) ∧
    d.weeks = date.weeks ∧ d.years = date.years ∧ d.months = date.months ∧ d.days = date.days := by
  rcases hH : readPart 'H' cs with ⟨hours, cs₁⟩
  rcases hM : readPart 'M' cs₁ with ⟨minutes, cs₂⟩
  rcases hS : readSeconds cs₂ with ⟨seconds, cs₃⟩
  simp only [readTime, hH, hM, hS] at h
  cases h
  obtain ⟨ho, hh, rfl⟩ := spells_of_readPart hH
  obtain ⟨minutesText, hm, rfl⟩ := spells_of_readPart hM
  obtain ⟨secondsText, hs, rfl⟩ := spells_of_readSeconds hS
  exact ⟨⟨_, ⟨_, _, _, hh, hm, hs, rfl⟩, by simp⟩, rfl, rfl, rfl, rfl⟩

theorem SpellsTime.read {time : List Char} (h : SpellsTime d time) (date : Duration) : readTime date time
    = ({ date with hours := d.hours, minutes := d.minutes, seconds := d.seconds }, []) := by
  obtain ⟨hours, minutes, seconds, hh, hm, hs, rfl⟩ := h
  have hH := hh.read (by decide) (hm.skip (by decide) (by decide) (hs.skip (by decide) (by decide)))
  have hM := hm.read (by decide) (hs.skip (by decide) (by decide))
  simp [readTime, hH, hM, hs.read]

/-- What is read behind the letter P: weeks if there are any, a date, and a time if there is a T. -/
theorem spells_of_readParts (h : readParts cs = (d, tl)) : ∃ weeks date, SpellsPart 'W' d.weeks weeks ∧
    SpellsDate d date ∧ (SpellsTime d [] ∧ cs = weeks ++ (date ++ tl) ∨
      ∃ time, SpellsTime d time ∧ cs = weeks ++ (date ++ 'T' :: (time ++ tl))) := by
  rcases hW : readPart 'W' cs with ⟨weeks, cs₁⟩
  rcases hY : readPart 'Y' cs₁ with ⟨years, cs₂⟩
  rcases hM : readPart 'M' cs₂ with ⟨months, cs₃⟩
  rcases hD : readPart 'D' cs₃ with ⟨days, cs₄⟩
  simp only [readParts, hW, hY, hM, hD] at h
  obtain ⟨weeksText, hw, rfl⟩ := spells_of_readPart hW
  obtain ⟨yearsText, hy, rfl⟩ := spells_of_readPart hY
  obtain ⟨monthsText, hm, rfl⟩ := spells_of_readPart hM
  obtain ⟨daysText, hd, rfl⟩ := spells_of_readPart hD
  split at h
  · obtain ⟨⟨time, ht, rfl⟩, rfl, rfl, rfl, rfl⟩ := spells_of_readTime h
    exact ⟨_, _, hw, ⟨_, _, _, hy, hm, hd, rfl⟩, .inr ⟨time, ht, by simp⟩⟩
  · cases h
    exact ⟨_, _, hw, ⟨_, _, _, hy, hm, hd, rfl⟩, .inl ⟨⟨_, _, _, .missing, .missing, .missing, rfl⟩, by simp⟩⟩

theorem SpellsDate.read {date : List Char} (h : SpellsDate d date) (tl : List Char) (ht : ∀ c ∈ tl.head?, c = 'T') :
    ∃ cs₂ cs₃, readPart 'W' (date ++ tl) = (none, date ++ tl) ∧ readPart 'Y' (date ++ tl) = (d.years, cs₂) ∧
      readPart 'M' cs₂ = (d.months, cs₃) ∧ readPart 'D' cs₃ = (d.days, tl) := by
  obtain ⟨years, months, days, hy, hm, hd, rfl⟩ := h
  have hst : ∀ letter, readPart letter tl = (none, tl) := fun letter =>
    readPart_of_head fun c hc => by rw [ht c hc]; decide
  have hs : ∀ letter, 'D' ≠ letter → readPart letter (days ++ tl) = (none, days ++ tl) :=
    fun letter hn => hd.skip (by decide) hn (hst letter)
  rw [append_assoc, append_assoc]
  refine ⟨_, _, ?_, ?_, hm.read (by decide) (hs 'M' (by decide)), hd.read (by decide) (hst 'D')⟩
  · exact hy.skip (by decide) (by decide) (hm.skip (by decide) (by decide) (hs 'W' (by decide)))
  · exact hy.read (by decide) (hm.skip (by decide) (by decide) (hs 'Y' (by decide)))

theorem SpellsTime.none (h : SpellsTime d []) : d.hours = none ∧ d.minutes = none ∧ d.seconds = none := by
  have hr : (({} : Duration), ([] : List Char))
      = ({ hours := d.hours, minutes := d.minutes, seconds := d.seconds }, []) := h.read {}
  injection hr with hp
  injection hp with _ _ _ _ hh hm hs
  exact ⟨hh.symm, hm.symm, hs.symm⟩

theorem Spells.ofChars?_eq (h : Spells d cs) : ofChars? cs = some d := by
  cases h with
  | weeks hdi =>
    have hn : ∀ letter, readPart letter [] = (none, []) := fun _ => rfl
    have hW := (SpellsPart.number hdi).read (by decide) (hn 'W')
    rw [append_nil] at hW
    simp [ofChars?, readParts, hW, hn]
  | date hw hda ht _ =>
    obtain ⟨cs₂, cs₃, hW, hY, hM, hD⟩ := hda.read [] (by simp)
    obtain ⟨hh, hm, hs⟩ := ht.none
    have hd : { years := d.years, months := d.months, days := d.days } = d := by
      cases d
      simp_all
    rw [append_nil] at hW hY
    simp [ofChars?, readParts, hW, hY, hM, hD, hd]
  | @time _ date time hw hda ht _ =>
    obtain ⟨cs₂, cs₃, hW, hY, hM, hD⟩ := hda.read ('T' :: time) (by simp)
    have hd : { years := d.years, months := d.months, days := d.days, hours := d.hours, minutes := d.minutes,
                seconds := d.seconds } = d := by
      cases d
      simp_all
    simp [ofChars?, readParts, hW, hY, hM, hD, ht.read, hd]

/-! ### Valid texts -/

theorem readParts_of_ofChars? (h : ofChars? cs = some d) (hl : cs.getLast? ≠ some '\n') :
    ∃ tl, cs = 'P' :: tl ∧ readParts tl = (d, []) := by
  unfold ofChars? at h
  split at h
  · next tl =>
    split at h
    · next hp =>
      cases h
      exact ⟨tl, rfl, hp⟩
    · next hp =>
      obtain ⟨weeks, date, -, -, ⟨-, rfl⟩ | ⟨time, -, rfl⟩⟩ := spells_of_readParts hp
      · exact absurd (by simp [getLast?_cons]) hl
      · exact absurd (by simp [getLast?_cons]) hl
    · cases h
  · cases h

theorem SpellsPart.not_mem (h : SpellsPart letter part text) (hT : 'T' ≠ letter) : 'T' ∉ text := by
  cases h with
  | missing => exact not_mem_nil
  | number hd =>
    rw [mem_append, mem_singleton, not_or]
    exact ⟨fun hm => absurd (hd.2 'T' hm) (by decide), hT⟩

theorem SpellsSeconds.not_mem (h : SpellsSeconds seconds text) : 'T' ∉ text := by
  have hn : ∀ {digits}, IsNumber digits → 'T' ∉ digits := fun hd hm =>
    absurd (hd.2 'T' hm) (by decide)
  cases h with
  | missing => exact not_mem_nil
  | whole hd => simp [hn hd]
  | fraction hd hf => simp [hn hd, hn hf]

theorem Spells.ends (h : Spells d cs) : cs ≠ ['P'] ∧ cs.getLast? ≠ some 'T' := by
  have he : ∀ {tl : List Char} (f : List Char), tl ≠ [] → 'T' ∉ tl → (f ++ tl).getLast? ≠ some 'T' := by
    intro tl f hn hT hl
    rw [getLast?_append, getLast?_eq_some_getLast hn] at hl
    exact hT (Option.some.inj hl ▸ getLast_mem hn)
  cases h with
  | weeks => simp [getLast?_cons]
  | date _ hd _ hn =>
    obtain ⟨years, months, days, hy, hmo, hda, rfl⟩ := hd
    refine ⟨by simpa using hn, he ['P'] hn ?_⟩
    simp [hy.not_mem, hmo.not_mem, hda.not_mem]
  | @time _ date _ _ _ ht hn =>
    obtain ⟨hours, minutes, seconds, hh, hm, hs, rfl⟩ := ht
    refine ⟨by simp, ?_⟩
    rw [← cons_append, append_cons]
    exact he _ hn (by simp [hh.not_mem, hm.not_mem, hs.not_mem])

theorem Spells.weeksAlone (h : Spells d cs) : d.weeksAlone cs := by
  cases h with
  | weeks => simp [Duration.weeksAlone]
  | date hw => simp [Duration.weeksAlone, hw]
  | time hw => simp [Duration.weeksAlone, hw]

theorem Spells.isValid (s : String) (h : Spells d s.toList) : Duration.isValid s := by
  obtain ⟨hP, hT⟩ := h.ends
  simp only [Duration.isValid, Bool.and_eq_true, bne_iff_ne, ne_eq, ← String.toList_inj]
  refine ⟨⟨⟨⟨?_, hP⟩, ?_⟩, hT⟩, ?_⟩
  · intro hs
    rw [hs] at h
    cases h
  · intro hs
    rw [hs] at hT
    exact hT rfl
  · rw [h.ofChars?_eq]
    exact h.weeksAlone

/-- A valid text spells a duration. Trimming matters for a line feed at the end, which is read over. -/
theorem spells_of_isValid (s : String) (htr : trim s = s) (h : isValid s) : ∃ d, Spells d s.toList := by
  have hf : s.toList.getLast? ≠ some '\n' := by
    intro hl
    rw [← htr, trim, String.toList_ofList] at hl
    exact absurd (getLast?_trimBy isBlank s.toList '\n' hl) (by decide)
  simp only [isValid, Bool.and_eq_true, bne_iff_ne, ne_eq, ← String.toList_inj] at h
  generalize s.toList = cs at hf h
  obtain ⟨⟨⟨⟨-, hP⟩, -⟩, hT⟩, hr⟩ := h
  split at hr
  · next d ho =>
    obtain ⟨tl, rfl, hp⟩ := readParts_of_ofChars? ho hf
    obtain ⟨weeks, date, hwe, hd, hre⟩ := spells_of_readParts hp
    simp only [append_nil] at hre
    cases hw : d.weeks with
    | some ds =>
      rw [hw] at hwe
      cases hwe with
      | number hdi =>
        simp [Duration.weeksAlone, hw] at hr
        rcases hr with rfl | rfl
        · exact ⟨{ weeks := some ds }, .weeks hdi⟩
        · exact absurd (by simp [getLast?_cons]) hf
    | none =>
      rw [hw] at hwe
      cases hwe
      rcases hre with ⟨ht, rfl⟩ | ⟨time, ht, rfl⟩
      · refine ⟨d, .date hw hd ht ?_⟩
        rintro rfl
        exact hP rfl
      · refine ⟨d, .time hw hd ht ?_⟩
        rintro rfl
        simp [getLast?_cons] at hT
  · cases hr

/-- The valid texts are those that spell a duration. -/
theorem isValid_iff_spells (s : String) (htrim : trim s = s) : isValid s = true ↔ ∃ d, Spells d s.toList :=
  ⟨spells_of_isValid s htrim, fun ⟨_, h⟩ => h.isValid s⟩

theorem isValid_iff_spells_samples : (trim "P٣DT0.5S" = "P٣DT0.5S" ∧ ∃ d, Spells d "P٣DT0.5S".toList) ∧
    trim "P1W2D" = "P1W2D" ∧ ¬ ∃ d, Spells d "P1W2D".toList :=
  ⟨⟨by decide +kernel, (isValid_iff_spells _ (by decide +kernel)).mp (by decide +kernel)⟩, by decide +kernel,
    fun h => absurd ((isValid_iff_spells _ (by decide +kernel)).mpr h) (by decide +kernel)⟩

end ProcessForge.Duration
