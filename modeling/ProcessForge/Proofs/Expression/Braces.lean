import ProcessForge.Proofs.Expression.VariableNames

/-! Braces of flow conditions in the dialect without a wrapper. The wrapper of a text is seen by its ends alone, so
    two interpolations with something between them pass for one. Main statement: at most the first and the last
    brace go, both or none, and nested braces stay nested just if the first one is not closed before the end. -/

namespace ProcessForge.Expression

open List Text

/-- How many braces are open after a text, unless a brace closes where none is open. -/
def openAfter? : Nat → List Char → Option Nat
  | depth, [] => some depth
  | depth, c :: rest =>
    if c = '\x7b' then openAfter? (depth + 1) rest
    else if c = '\x7d' then
      match depth with
      | 0 => none
      | depth + 1 => openAfter? depth rest
    else openAfter? depth rest

/-- Every brace closes one that is open, and all are closed at the end. -/
def IsNested (cs : List Char) : Prop := openAfter? 0 cs = some 0

instance (cs : List Char) : Decidable (IsNested cs) := inferInstanceAs (Decidable (_ = _))

def braces (cs : List Char) : List Char := cs.filter fun c => c == '\x7b' || c == '\x7d'

/-- The text in which the wrapper is looked for: without marks and without blanks at its ends. -/
def unmarked (s : String) : List Char := trimChars (replaceMarked id s.toList)

/-! ### Open braces -/

theorem openAfter?_append (depth : Nat) (cs ds : List Char) :
    openAfter? depth (cs ++ ds) = (openAfter? depth cs).bind fun d => openAfter? d ds := by
  fun_induction openAfter? depth cs with
  | case1 depth => rfl
  | case2 depth tl ih => simpa [openAfter?] using ih
  | case3 tl => simp [openAfter?]
  | case4 tl depth _ ih => simpa [openAfter?] using ih
  | case5 depth c tl ho hc ih => simpa [openAfter?, ho, hc] using ih

theorem openAfter?_braces (depth : Nat) (cs : List Char) : openAfter? depth (braces cs) = openAfter? depth cs := by
  fun_induction openAfter? depth cs with
  | case1 depth => rfl
  | case2 depth tl ih => simpa [braces, openAfter?] using ih
  | case3 tl => simp [braces, openAfter?]
  | case4 tl depth _ ih => simpa [braces, openAfter?] using ih
  | case5 depth c tl ho hc ih => simpa [braces, ho, hc] using ih

variable {cs inside : List Char} {depth : Nat} {p : Char → Bool}

theorem isNested_congr {ds : List Char} (h : braces cs = braces ds) : IsNested cs ↔ IsNested ds := by
  rw [IsNested, ← openAfter?_braces, h, openAfter?_braces, IsNested]

theorem openAfter?_succ {post : Nat} (h : openAfter? depth cs = some post) :
    openAfter? (depth + 1) cs = some (post + 1) := by
  fun_induction openAfter? depth cs with
  | case1 depth =>
    cases h
    rfl
  | case2 depth tl ih => simpa [openAfter?] using ih h
  | case3 tl => cases h
  | case4 tl depth _ ih => simpa [openAfter?] using ih h
  | case5 depth c tl ho hc ih => simpa [openAfter?, ho, hc] using ih h

/-- The only fault on the way is a closing brace where all braces before it are closed. -/
theorem openAfter?_eq_none_iff :
    openAfter? depth cs = none ↔ ∃ pre post, cs = pre ++ '\x7d' :: post ∧ openAfter? depth pre = some 0 := by
  refine ⟨fun h => ?_, ?_⟩
  · fun_induction openAfter? depth cs with
    | case1 depth => cases h
    | case3 tl => exact ⟨[], tl, rfl, rfl⟩
    | case2 depth tl ih =>
      obtain ⟨pre, post, rfl, hb⟩ := ih h
      exact ⟨_ :: pre, post, rfl, by simpa [openAfter?] using hb⟩
    | case4 tl depth _ ih =>
      obtain ⟨pre, post, rfl, hb⟩ := ih h
      exact ⟨_ :: pre, post, rfl, by simpa [openAfter?] using hb⟩
    | case5 depth c tl ho hc ih =>
      obtain ⟨pre, post, rfl, hb⟩ := ih h
      exact ⟨c :: pre, post, rfl, by simpa [openAfter?, ho, hc] using hb⟩
  · rintro ⟨pre, post, rfl, hb⟩
    simp [openAfter?_append, hb, openAfter?]

/-- The inside of a wrapper is nested just if its opening brace is not closed before the end. -/
theorem isNested_inside_iff (h : IsNested (interpolate inside)) :
    IsNested inside ↔ ¬ ∃ body tl, inside = body ++ '\x7d' :: tl ∧ IsNested body := by
  have ho : openAfter? 1 inside = some 1 := by
    have hr : (openAfter? 1 inside).bind (fun d => openAfter? d ['\x7d']) = some 0 := by
      rw [← openAfter?_append]
      simpa [IsNested, interpolate, openAfter?] using h
    obtain ⟨depth, hd, hl⟩ := Option.bind_eq_some_iff.mp hr
    rcases depth with _ | depth
    · cases hl
    · cases hl
      exact hd
  simp only [IsNested, ← openAfter?_eq_none_iff]
  cases hz : openAfter? 0 inside with
  | none => simp
  | some depth =>
    have hd := ho.symm.trans (openAfter?_succ hz)
    simpa using hd.symm

/-! ### What flattening drops -/

theorem filter_replacePieces (h : p '~' = false) (ps : List (List Char)) :
    (replacePieces id ps).filter p = ps.flatten.filter p := by
  fun_induction replacePieces id ps with
  | case1 => rfl
  | case2 last => simp [h]
  | case3 b next tl he ih => simpa [h, List.isEmpty_iff.mp he] using ih
  | case4 b next tl he ih => simpa using ih

theorem filter_flatten_splitAtChar (h : p '~' = false) (cs : List Char) :
    (splitAtChar '~' cs).flatten.filter p = cs.filter p := by
  induction cs with
  | nil => rfl
  | cons c tl ih =>
    by_cases hc : c = '~'
    · subst hc
      rw [← nil_append ('~' :: tl), splitAtChar_append_separator tl not_mem_nil]
      simpa [h] using ih
    · obtain ⟨pc, ps, hs⟩ := exists_cons_of_ne_nil (splitAtChar_ne_nil '~' tl)
      rw [hs] at ih
      rw [splitAtChar_cons_of_ne hc hs]
      simpa [filter_cons] using congrArg (fun t => if p c then c :: t else t) ih

theorem braces_replaceMarked (cs : List Char) : braces (replaceMarked id cs) = braces cs := by
  have hc := filter_flatten_splitAtChar (p := fun c => c == '\x7b' || c == '\x7d') (by decide) cs
  rw [braces, replaceMarked]
  cases hs : splitAtChar '~' cs with
  | nil => exact absurd hs (splitAtChar_ne_nil '~' cs)
  | cons f tl =>
    rw [hs] at hc
    rw [filter_append, filter_replacePieces (by decide), ← filter_append]
    exact hc

theorem braces_eq_nil (h : ∀ c ∈ cs, isBlank c) : braces cs = [] := by
  refine filter_eq_nil_iff.mpr fun c hc hb => ?_
  rcases (by simpa using hb : c = '\x7b' ∨ c = '\x7d') with rfl | rfl
  · exact absurd (h _ hc) (by decide)
  · exact absurd (h _ hc) (by decide)

theorem braces_trimChars (cs : List Char) : braces (trimChars cs) = braces cs := by
  obtain ⟨pre, after, hc, hb, ha⟩ := exists_trimBy isBlank cs
  calc braces (trimChars cs)
      = braces pre ++ braces (trimChars cs) ++ braces after := by
        simp [braces_eq_nil hb, braces_eq_nil ha]
    _ = braces cs := by
        conv_rhs => rw [hc]
        simp [braces, trimChars]

theorem braces_unmarked (s : String) : braces (unmarked s) = braces s.toList := by
  rw [unmarked, braces_trimChars, braces_replaceMarked]

theorem braces_interpolate (inside : List Char) :
    braces (interpolate inside) = '\x7b' :: braces inside ++ ['\x7d'] := by
  simp [braces, interpolate]

theorem eq_interpolate_of_unwrap? (h : unwrap? cs = some inside) : cs = interpolate inside := by
  unfold unwrap? at h
  split at h
  · split at h
    · rename_i hl
      cases h
      rw [interpolate, cons_append, cons_append, dropLast_append_getLast? _ hl]
    · cases h
  · cases h

theorem braces_flattenBonita (s : String) :
    (braces (flattenBonita s).toList = braces (unmarked s) ∧ unwrap? (unmarked s) = none) ∨
      ∃ inside, unmarked s = interpolate inside ∧ braces (flattenBonita s).toList = braces inside := by
  rw [flattenBonita]
  split
  · rename_i hbl
    have hn : braces s.toList = [] := braces_eq_nil (by simpa [isBlankText] using hbl)
    refine .inl ⟨(braces_unmarked s).symm, ?_⟩
    by_contra hs
    obtain ⟨inside, hin⟩ := Option.ne_none_iff_exists'.mp hs
    have hb := braces_unmarked s
    rw [eq_interpolate_of_unwrap? hin, hn] at hb
    cases hb
  · cases hu : unwrap? (unmarked s) with
    | none => exact .inl ⟨by rw [unmarked] at hu; simp [unmarked, hu], rfl⟩
    | some inside =>
      refine .inr ⟨inside, eq_interpolate_of_unwrap? hu, ?_⟩
      rw [unmarked] at hu
      simp [hu, braces_trimChars]

/-- Braces that are nested stay so just if the text does not begin with an interpolation that is closed before a
    brace at the end; what goes is the outermost pair of braces or nothing. -/
theorem isNested_flattenBonita_iff (s : String) (h : IsNested s.toList) : (IsNested (flattenBonita s).toList ↔
      ¬ ∃ body rest, unmarked s = interpolate body ++ rest ++ ['\x7d'] ∧ IsNested body) ∧
    (braces (flattenBonita s).toList = braces s.toList ∨
      braces s.toList = '\x7b' :: braces (flattenBonita s).toList ++ ['\x7d']) := by
  have hnested : IsNested (unmarked s) := (isNested_congr (braces_unmarked s)).mpr h
  rcases braces_flattenBonita s with ⟨hbraces, hunwrap⟩ | ⟨inside, hinside, hbraces⟩
  · refine ⟨iff_of_true ((isNested_congr hbraces).mpr hnested) ?_, .inl (hbraces.trans (braces_unmarked s))⟩
    rintro ⟨body, rest, htext, -⟩
    have hwhole : unmarked s = interpolate (body ++ '\x7d' :: rest) := by simp [htext, interpolate]
    rw [hwhole, unwrap?_interpolate] at hunwrap
    cases hunwrap
  · rw [hinside] at hnested
    refine ⟨?_, .inr ?_⟩
    · have htext : ∀ body rest, interpolate inside = interpolate body ++ rest ++ ['\x7d'] ↔
          inside = body ++ '\x7d' :: rest := by
        intro body rest
        have hlast : inside ++ ['\x7d'] = (body ++ '\x7d' :: rest) ++ ['\x7d'] ↔ inside = body ++ '\x7d' :: rest :=
          append_left_inj _
        simpa [interpolate] using hlast
      rw [isNested_congr hbraces, isNested_inside_iff hnested, hinside]
      simp only [htext]
    · rw [← braces_unmarked, hinside, braces_interpolate, hbraces]

theorem isNested_flattenBonita_iff_sum :
    IsNested " $\x7b ~order.total~ > sum(\x7b~low~\x7d, \x7b~high~\x7d) \x7d".toList ∧
    flattenBonita " $\x7b ~order.total~ > sum(\x7b~low~\x7d, \x7b~high~\x7d) \x7d" =
      "order.total > sum(\x7blow\x7d, \x7bhigh\x7d)" ∧
    ¬ ∃ body rest, unmarked " $\x7b ~order.total~ > sum(\x7b~low~\x7d, \x7b~high~\x7d) \x7d" =
      interpolate body ++ rest ++ ['\x7d'] ∧ IsNested body :=
  ⟨by decide +kernel, by decide +kernel, (isNested_flattenBonita_iff _ (by decide +kernel)).1.mp (by decide +kernel)⟩

/-- Two interpolations pass for one wrapper. -/
theorem two_interpolations_unnested : IsNested "$\x7ba\x7d && $\x7bb\x7d".toList ∧
    flattenBonita "$\x7ba\x7d && $\x7bb\x7d" = "a\x7d && $\x7bb" ∧
    ¬ IsNested (flattenBonita "$\x7ba\x7d && $\x7bb\x7d").toList := by
  decide +kernel

end ProcessForge.Expression
