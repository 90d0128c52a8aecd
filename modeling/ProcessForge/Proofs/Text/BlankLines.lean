import ProcessForge.Proofs.Text.Trim

/-! Blank lines. A line that holds blanks only is dropped unless it is the first or the last one of its text.
    The parts of a text in front of and behind a character that is no blank are tidied on their own. -/

namespace ProcessForge.Text

open List

variable {c : Char} {cs l : List Char} {ls : List (List Char)}

/-- Whether a character makes a line count. A carriage return does: it is written by its number. -/
def isInk (c : Char) : Bool := !isBlank c || c == '\r'

/-- What is left of a text behind a line feed when its first line is complete and blank. -/
def afterBreak (cs : List Char) : List Char :=
  match cs.dropWhile fun c => !isInk c && c != '\n' with
  | '\n' :: rest => rest
  | _ => cs

/-- Drops the blank lines of a text other than the first and the last line. -/
def tidy : List Char → List Char
  | [] => []
  | c :: cs => if c == '\n' then '\n' :: afterBreak (tidy cs) else c :: tidy cs

/-! ### Parts of a text -/

theorem tidy_cons (h : c ≠ '\n') (cs : List Char) : tidy (c :: cs) = c :: tidy cs := by
  simp [tidy, h]

theorem tidy_newline (cs : List Char) : tidy ('\n' :: cs) = '\n' :: afterBreak (tidy cs) := rfl

theorem ne_newline_of_isInk (h : isInk c) : c ≠ '\n' := by
  rintro rfl
  exact absurd h (by decide)

theorem tidy_append {fr : List Char} (h : '\n' ∉ fr) (cs : List Char) : tidy (fr ++ cs) = fr ++ tidy cs := by
  induction fr with
  | nil => rfl
  | cons c fr ih =>
    rw [mem_cons, not_or] at h
    rw [cons_append, tidy_cons (Ne.symm h.1), ih h.2, cons_append]

theorem tidy_of_not_mem (h : '\n' ∉ cs) : tidy cs = cs := by
  simpa [tidy] using tidy_append h []

theorem afterBreak_append (hc : isInk c) (cs rest : List Char) :
    afterBreak (cs ++ c :: rest) = afterBreak cs ++ c :: rest := by
  have hn := ne_newline_of_isInk hc
  cases hdr : cs.dropWhile (fun c => !isInk c && c != '\n') with
  | nil => simp [afterBreak, dropWhile_append, hdr, hc, hn]
  | cons d ds => by_cases hd : d = '\n' <;> simp [afterBreak, dropWhile_append, hdr, hd]

/-- A character that is no blank separates what is tidied in front of it from what is tidied behind it. -/
theorem tidy_append_cons (hc : isInk c) (cs rest : List Char) : tidy (cs ++ c :: rest) = tidy cs ++ c :: tidy rest := by
  induction cs with
  | nil => exact tidy_cons (ne_newline_of_isInk hc) rest
  | cons d cs ih =>
    by_cases hd : d = '\n'
    · rw [hd, cons_append, tidy_newline, tidy_newline, ih, afterBreak_append hc, cons_append]
    · rw [cons_append, tidy_cons hd, tidy_cons hd, ih, cons_append]

/-! ### What stays -/

theorem afterBreak_suffix (cs : List Char) : afterBreak cs <:+ cs := by
  unfold afterBreak
  split
  · next tl hd =>
    have hr : '\n' :: tl <:+ cs := hd ▸ dropWhile_suffix _
    exact (suffix_cons _ _).trans hr
  · exact suffix_rfl

/-- Characters are only taken away. -/
theorem tidy_sublist (cs : List Char) : (tidy cs).Sublist cs := by
  induction cs with
  | nil => exact Sublist.refl _
  | cons c cs ih =>
    by_cases hc : c = '\n'
    · rw [hc]
      exact ((afterBreak_suffix _).sublist.trans ih).cons_cons _
    · rw [tidy_cons hc]
      exact ih.cons_cons _

theorem mem_of_mem_tidy (h : c ∈ tidy cs) : c ∈ cs := (tidy_sublist cs).subset h

theorem head?_tidy (cs : List Char) : (tidy cs).head? = cs.head? := by
  cases cs with
  | nil => rfl
  | cons c cs =>
    by_cases hc : c = '\n'
    · rw [hc]
      rfl
    · rw [tidy_cons hc]
      rfl

theorem pair_of_pair_tidy {a b : Char} (ha : isInk a) (h : [a, b] <:+: tidy cs) : [a, b] <:+: cs := by
  induction cs with
  | nil => exact h
  | cons c cs ih =>
    by_cases hc : c = '\n'
    · -- what goes stands behind the line feed, and the pair does not begin with one
      rw [hc, tidy_newline, infix_cons_iff] at h
      rcases h with hs | hin
      · have heq : a = '\n' := by simpa using (cons_prefix_cons.mp hs).1
        exact absurd heq (ne_newline_of_isInk ha)
      · exact infix_cons (ih (hin.trans (afterBreak_suffix _).isInfix))
    · rw [tidy_cons hc, infix_cons_iff] at h
      rcases h with hs | hin
      · obtain ⟨rfl, hn⟩ := cons_prefix_cons.mp hs
        obtain ⟨tl, hr⟩ := hn
        have hh : cs.head? = some b := by rw [← head?_tidy, ← hr]; rfl
        obtain ⟨ds, rfl⟩ := head?_eq_some_iff.mp hh
        exact (prefix_append [a, b] ds).isInfix
      · exact infix_cons (ih hin)

/-! ### Lines -/

def ended (ls : List (List Char)) : List Char := ls.flatMap (· ++ ['\n'])

theorem ended_cons (l : List Char) (ls : List (List Char)) : ended (l :: ls) = l ++ '\n' :: ended ls := by
  simp [ended]

theorem afterBreak_line (h : '\n' ∉ l) (cs : List Char) :
    afterBreak (l ++ '\n' :: cs) = if l.any isInk then l ++ '\n' :: cs else cs := by
  have hp : ∀ c ∈ l, (!isInk c && c != '\n') = !isInk c := by
    intro c hc
    simp [ne_of_mem_of_not_mem hc h]
  unfold afterBreak
  cases hdr : l.dropWhile (fun c => !isInk c && c != '\n') with
  | nil =>
    have hn : l.any isInk = false := by
      rw [any_eq_false]
      intro c hc
      simpa [hp c hc] using dropWhile_eq_nil_iff.mp hdr c hc
    simp [dropWhile_append, hdr, hn]
  | cons d ds =>
    have hd : d ∈ l := (dropWhile_suffix _).subset (hdr ▸ mem_cons_self)
    have hs := head?_dropWhile_not (fun c => !isInk c && c != '\n') l
    have hin : isInk d := by simpa [hdr, hp d hd] using hs
    have ha : l.any isInk := any_eq_true.mpr ⟨d, hd, hin⟩
    simp [dropWhile_append, hdr, ha, ne_newline_of_isInk hin]

theorem afterBreak_of_not_mem (h : '\n' ∉ cs) : afterBreak cs = cs := by
  unfold afterBreak
  split
  · next tl hd => exact absurd ((dropWhile_suffix _).subset (hd ▸ mem_cons_self)) h
  · rfl

/-- Of the lines of a text, the first one and the last one stay, and of those between them the ones that count. -/
theorem tidy_lines {last : List Char} (hl : '\n' ∉ last) : ∀ {a : List Char} {middle : List (List Char)},
    '\n' ∉ a → (∀ ln ∈ middle, '\n' ∉ ln) →
    tidy (a ++ '\n' :: (ended middle ++ last)) = a ++ '\n' :: (ended (middle.filter fun ln => ln.any isInk) ++ last)
  | a, [], hf, _ => by
    rw [tidy_append hf, tidy_newline, ended, flatMap_nil, nil_append, tidy_of_not_mem hl, afterBreak_of_not_mem hl]
    rfl
  | a, ln :: middle, hf, hm => by
    rw [forall_mem_cons] at hm
    have hr := tidy_lines hl hm.1 hm.2
    rw [tidy_append hf, tidy_newline, ended_cons, append_assoc, cons_append, hr, afterBreak_line hm.1, filter_cons]
    split
    · rw [ended_cons, append_assoc, cons_append]
    · rfl

/-! ### Whole texts -/

theorem joinChars_append_newline (l : List Char) (ls : List (List Char)) :
    joinChars ['\n'] (l :: ls) ++ ['\n'] = l ++ '\n' :: ended ls := by
  induction ls generalizing l with
  | nil => rfl
  | cons m ls ih =>
    have hj : joinChars ['\n'] (l :: m :: ls) = l ++ ['\n'] ++ joinChars ['\n'] (m :: ls) := rfl
    rw [hj, append_assoc, ih, ended_cons]
    simp

/-- What a character does to the lines behind it: a pair of a carriage return and a line feed ends a line, as any other
    end of a line does, and all else begins the first line. -/
theorem lines_step (c : Char) (cs : List Char) : (∃ tl, c = '\r' ∧ cs = '\n' :: tl ∧ lines (c :: cs) = [] :: lines tl) ∨
    ((c = '\r' → cs.head? ≠ some '\n') ∧ isLineBreak c ∧ lines (c :: cs) = [] :: lines cs) ∨
    (isLineBreak c = false ∧ lines (c :: cs) = (c :: (lines cs).headD []) :: (lines cs).tail) := by
  by_cases hp : c = '\r' ∧ cs.head? = some '\n'
  · obtain ⟨rfl, hh⟩ := hp
    obtain ⟨tl, rfl⟩ := head?_eq_some_iff.mp hh
    exact Or.inl ⟨tl, rfl, rfl, rfl⟩
  · have ho : ∀ tl, c = '\r' → cs = '\n' :: tl → False := by
      rintro tl hc rfl
      exact hp ⟨hc, rfl⟩
    right
    rw [lines]
    · by_cases hc : isLineBreak c
      · rw [if_pos hc]
        exact Or.inl ⟨fun hr hh => hp ⟨hr, hh⟩, hc, rfl⟩
      · rw [if_neg hc]
        refine Or.inr ⟨Bool.eq_false_iff.mpr hc, ?_⟩
        cases lines cs with
        | nil => rfl
        | cons l ls => rfl
    · exact ho

theorem lines_cons (hc : isLineBreak c = false) (h : lines cs = l :: ls) : lines (c :: cs) = (c :: l) :: ls := by
  rcases lines_step c cs with ⟨tl, rfl, -⟩ | ⟨-, hb, -⟩ | ⟨-, hl⟩
  · exact absurd hc (by decide)
  · exact absurd (hc.symm.trans hb) (by decide)
  · rw [hl, h]
    rfl

theorem lines_break (hc : isLineBreak c) (h : c = '\r' → cs.head? ≠ some '\n') : lines (c :: cs) = [] :: lines cs := by
  rcases lines_step c cs with ⟨tl, rfl, rfl, -⟩ | ⟨-, -, hl⟩ | ⟨ho, -⟩
  · exact absurd rfl (h rfl)
  · exact hl
  · exact absurd (ho.symm.trans hc) (by decide)

theorem lines_append_newline (h : ∀ c ∈ l, isLineBreak c = false) (cs : List Char) :
    lines (l ++ '\n' :: cs) = l :: lines cs := by
  induction l with
  | nil =>
    rw [nil_append, lines_break (by decide) fun hr => absurd hr (by decide)]
  | cons c l ih =>
    rw [forall_mem_cons] at h
    exact lines_cons h.1 (ih h.2)

theorem lines_ended (h : ∀ l ∈ ls, ∀ c ∈ l, isLineBreak c = false) : lines (ended ls) = ls := by
  induction ls with
  | nil => rfl
  | cons l ls ih =>
    rw [forall_mem_cons] at h
    rw [ended_cons, lines_append_newline h.1, ih h.2]

theorem exists_lines (h : ∀ c ∈ cs, isLineBreak c → c = '\n') :
    ∃ l ls, lines (cs ++ ['\n']) = l :: ls ∧ cs ++ ['\n'] = l ++ '\n' :: ended ls ∧
      ∀ line ∈ l :: ls, ∀ c ∈ line, isLineBreak c = false := by
  induction cs with
  | nil => exact ⟨[], [], rfl, rfl, by simp⟩
  | cons c cs ih =>
    obtain ⟨l, ls, hl, hs, hb⟩ := ih fun d hd => h d (mem_cons_of_mem _ hd)
    cases hc : isLineBreak c with
    | true =>
      obtain rfl := h c mem_cons_self hc
      refine ⟨[], l :: ls, ?_, by rw [cons_append, hs, ended_cons]; rfl, by simpa using hb⟩
      rw [cons_append, lines_break (by decide) fun hr => absurd hr (by decide), hl]
    | false =>
      refine ⟨c :: l, ls, lines_cons hc hl, by rw [cons_append, hs, cons_append], ?_⟩
      rw [forall_mem_cons] at hb ⊢
      exact ⟨forall_mem_cons.mpr ⟨hc, hb.1⟩, hb.2⟩

theorem isBlank_of_isLineBreak (h : isLineBreak c) : isBlank c := by
  simp only [isLineBreak, isBlank, Bool.or_eq_true, Bool.and_eq_true, decide_eq_true_eq, beq_iff_eq] at h ⊢
  omega

theorem isInk_of_isLineBreak_eq_false (h : isLineBreak c = false) : isInk c = !isBlank c := by
  have hn : c ≠ '\r' := by
    rintro rfl
    exact absurd h (by decide)
  simp [isInk, hn]

/-- Taking the blank lines out of a text tidies it, if its first line counts and it ends with a line. -/
theorem dropBlankLines_eq (hc : isBlank c = false) (h : ∀ d ∈ cs, isLineBreak d → d = '\n') :
    dropBlankLines (String.ofList (c :: cs ++ ['\n'])) = String.ofList (tidy (c :: cs ++ ['\n'])) := by
  have hb : isLineBreak c = false := by
    by_contra hb
    simp [isBlank_of_isLineBreak (by simpa using hb)] at hc
  obtain ⟨l, ls, hli, hs, hbr⟩ := exists_lines h
  have hn : ∀ line ∈ l :: ls, '\n' ∉ line := fun line hl hm =>
    absurd (hbr line hl '\n' hm) (by decide)
  have hf : (ls.filter fun line => !line.all isBlank) = ls.filter fun line => line.any isInk := by
    refine filter_congr fun line hl => ?_
    have hin : ∀ d ∈ line, isInk d = !isBlank d := fun d hd =>
      isInk_of_isLineBreak_eq_false (hbr line (mem_cons_of_mem _ hl) d hd)
    rw [not_all_eq_any_not, Bool.eq_iff_iff, any_eq_true, any_eq_true]
    exact exists_congr fun d => and_congr_right fun hd => by rw [hin d hd]
  have hfi : '\n' ∉ c :: l := by
    rw [mem_cons, not_or]
    exact ⟨by rintro rfl; exact absurd hc (by decide), hn l mem_cons_self⟩
  have ht := tidy_lines not_mem_nil hfi fun line hl => hn line (mem_cons_of_mem _ hl)
  have hco : (c :: l).all isBlank = false := by simp [hc]
  rw [append_nil, append_nil, cons_append] at ht
  rw [dropBlankLines, String.toList_ofList, cons_append, lines_cons hb hli,
    filter_cons_of_pos (by simp [hco]), hf, joinChars_append_newline, hs, ht]

/-! ### Lines in front of a line feed and behind it -/

theorem lines_infix (cs : List Char) : ∀ line ls, lines cs = line :: ls → line <+: cs ∧ ∀ b ∈ ls, b <:+: cs := by
  have hm : ∀ {c : Char} {cs : List Char}, (∀ line ls, lines cs = line :: ls →
      line <+: cs ∧ ∀ b ∈ ls, b <:+: cs) → ∀ b ∈ lines cs, b <:+: c :: cs := by
    intro c cs ih b ho
    obtain ⟨line, ls, hl⟩ := exists_cons_of_ne_nil (ne_nil_of_mem ho)
    obtain ⟨hf, hr⟩ := ih line ls hl
    rw [hl] at ho
    rcases mem_cons.mp ho with rfl | ho
    · exact infix_cons hf.isInfix
    · exact infix_cons (hr b ho)
  induction hle : cs.length using Nat.strongRecOn generalizing cs with
  | ind n ih =>
    subst hle
    intro line ls h
    cases cs with
    | nil => cases h
    | cons c cs =>
      rcases lines_step c cs with ⟨tl, -, rfl, hl⟩ | ⟨-, -, hl⟩ | ⟨-, hl⟩
      · rw [hl] at h
        cases h
        have hr := ih tl.length (by rw [length_cons, length_cons]; omega) tl rfl
        exact ⟨ nil_prefix, fun b ho => infix_cons (hm hr b ho)⟩
      · rw [hl] at h
        cases h
        exact ⟨ nil_prefix, hm (ih cs.length (by simp) cs rfl)⟩
      · rw [hl] at h
        cases h
        cases hr : lines cs with
        | nil => exact ⟨cons_prefix_cons.mpr ⟨rfl, nil_prefix⟩, forall_mem_nil _⟩
        | cons l ls =>
          obtain ⟨hf, hot⟩ := ih cs.length (by simp) cs rfl l ls hr
          exact ⟨cons_prefix_cons.mpr ⟨rfl, hf⟩, fun b ho => infix_cons (hot b ho)⟩

theorem infix_of_mem_lines {ln : List Char} (h : ln ∈ lines cs) : ln <:+: cs := by
  obtain ⟨a, ls, hl⟩ := exists_cons_of_ne_nil (ne_nil_of_mem h)
  obtain ⟨hf, hr⟩ := lines_infix cs a ls hl
  rw [hl] at h
  rcases mem_cons.mp h with rfl | h
  · exact hf.isInfix
  · exact hr ln h

theorem lines_ne_nil (h : cs ≠ []) : lines cs ≠ [] := by
  obtain ⟨c, cs, rfl⟩ := exists_cons_of_ne_nil h
  rcases lines_step c cs with ⟨tl, -, -, hl⟩ | ⟨-, -, hl⟩ | ⟨-, hl⟩
  all_goals
    rw [hl]
    exact cons_ne_nil _ _

theorem lines_append_cons {last : Char} (hla : isLineBreak last = false) (cs rest : List Char) :
    lines (cs ++ last :: '\n' :: rest) = lines (cs ++ [last, '\n']) ++ lines rest := by
  have hp : ∀ {c : Char} {cs : List Char}, isLineBreak c = false →
      lines (cs ++ last :: '\n' :: rest) = lines (cs ++ [last, '\n']) ++ lines rest →
      lines (c :: cs ++ last :: '\n' :: rest) = lines (c :: cs ++ [last, '\n']) ++ lines rest := by
    intro c cs hc ih
    have hn : cs ++ [last, '\n'] ≠ [] := append_ne_nil_of_right_ne_nil _ (cons_ne_nil _ _)
    obtain ⟨l, ls, hl⟩ := exists_cons_of_ne_nil (lines_ne_nil hn)
    rw [hl, cons_append] at ih
    rw [cons_append, cons_append, lines_cons hc ih, lines_cons hc hl, cons_append]
  induction cs using lines.induct with
  | case1 =>
    have he : ∀ more : List Char, lines (last :: '\n' :: more) = [last] :: lines more := fun more =>
      lines_append_newline (forall_mem_singleton.mpr hla) more
    rw [nil_append, nil_append, he, he]
    rfl
  | case2 cs ih =>
    have hpa : ∀ more : List Char, lines ('\r' :: '\n' :: more) = [] :: lines more := fun _ => rfl
    rw [cons_append, cons_append, hpa, ih, cons_append, cons_append, hpa, cons_append]
  | case3 c cs hr hc ih =>
    have hs : ∀ more : List Char, c = '\r' → (cs ++ last :: more).head? ≠ some '\n' := by
      intro more hc hh
      cases cs with
      | nil =>
        obtain rfl : last = '\n' := Option.some.inj hh
        exact absurd hla (by decide)
      | cons d cs => exact hr cs hc (congrArg (· :: cs) (Option.some.inj hh))
    rw [cons_append, cons_append, lines_break hc (hs _), lines_break hc (hs _), ih, cons_append]
  | case4 c cs hr hc hno ih => exact hp (Bool.eq_false_iff.mpr hc) ih
  | case5 c cs hr hc l ls hso ih => exact hp (Bool.eq_false_iff.mpr hc) ih

def inkedLines (cs : List Char) : List (List Char) := (lines cs).filter fun line => !line.all isBlank

theorem toList_dropBlankLines (h : inkedLines cs ≠ []) :
    (dropBlankLines (String.ofList cs)).toList = ended (inkedLines cs) := by
  obtain ⟨l, ls, hl⟩ := exists_cons_of_ne_nil h
  have hf : ((lines cs).filter fun line => !line.all isBlank) = l :: ls := hl
  rw [dropBlankLines, String.toList_ofList, String.toList_ofList, hf, joinChars_append_newline, hl, ended_cons]

theorem toList_dropBlankLines_append {last : Char} (hl : isLineBreak last = false) (cs : List Char)
    {rest : List Char} (h : inkedLines rest ≠ []) :
    (dropBlankLines (String.ofList (cs ++ last :: '\n' :: rest))).toList
      = ended (inkedLines (cs ++ [last, '\n'])) ++ (dropBlankLines (String.ofList rest)).toList := by
  have hin : inkedLines (cs ++ last :: '\n' :: rest) = inkedLines (cs ++ [last, '\n']) ++ inkedLines rest := by
    rw [inkedLines, lines_append_cons hl, filter_append]
    rfl
  rw [toList_dropBlankLines h, toList_dropBlankLines, hin]
  · exact flatMap_append
  · rw [hin]
    exact append_ne_nil_of_right_ne_nil _ h

/-! ### Tidying and escaping -/

/-- Characters that count are written as several such characters, and the others as themselves. -/
structure KeepsBlanks (f : Char → List Char) : Prop where
  ink : ∀ c, isInk c = true → ∀ d ∈ f c, isInk d = true
  ink_ne_nil : ∀ c, isInk c = true → f c ≠ []
  blank : ∀ c, isInk c = false → f c = [c]

variable {f : Char → List Char}

theorem KeepsBlanks.exists_ink (h : KeepsBlanks f) (hc : isInk c) : ∃ d ds, f c = d :: ds ∧ isInk d := by
  obtain ⟨d, ds, hd⟩ := exists_cons_of_ne_nil (h.ink_ne_nil c hc)
  exact ⟨d, ds, hd, h.ink c hc d (by simp [hd])⟩

theorem KeepsBlanks.afterBreak (h : KeepsBlanks f) (cs : List Char) :
    afterBreak (cs.flatMap f) = (afterBreak cs).flatMap f := by
  have hne : f '\n' = ['\n'] := h.blank '\n' (by decide)
  have hdr : ∀ ds : List Char, (ds.flatMap f).dropWhile (fun c => !isInk c && c != '\n')
      = (ds.dropWhile fun c => !isInk c && c != '\n').flatMap f := by
    intro ds
    induction ds with
    | nil => rfl
    | cons d ds ih =>
      cases hd : isInk d with
      | true =>
        obtain ⟨e, es, he, hin⟩ := h.exists_ink hd
        simp [hd, he, hin]
      | false =>
        by_cases hn : d = '\n'
        · simp [hn, hne]
        · simp [h.blank d hd, hd, hn, ih]
  unfold Text.afterBreak
  rw [hdr]
  cases hc : cs.dropWhile (fun c => !isInk c && c != '\n') with
  | nil => rfl
  | cons d ds =>
    by_cases hn : d = '\n'
    · simp [hn, hne]
    · have hin : isInk d := by
        have hs := head?_dropWhile_not (fun c => !isInk c && c != '\n') cs
        simpa [hc, hn] using hs
      obtain ⟨e, es, he, hin⟩ := h.exists_ink hin
      simp [he, hn, ne_newline_of_isInk hin]

theorem KeepsBlanks.tidy (h : KeepsBlanks f) (cs : List Char) : tidy (cs.flatMap f) = (tidy cs).flatMap f := by
  induction cs with
  | nil => rfl
  | cons c cs ih =>
    by_cases hc : c = '\n'
    · simp [hc, h.blank '\n' (by decide), tidy_newline, ih, h.afterBreak]
    · have hf : '\n' ∉ f c := by
        intro hm
        cases hin : isInk c with
        | true => exact ne_newline_of_isInk (h.ink c hin _ hm) rfl
        | false => simp [h.blank c hin, Ne.symm hc] at hm
      rw [flatMap_cons, tidy_append hf, ih, tidy_cons hc, flatMap_cons]

end ProcessForge.Text
