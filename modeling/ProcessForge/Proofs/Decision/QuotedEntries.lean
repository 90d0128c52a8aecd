import ProcessForge.Proofs.Decision.Cell

/-! Entries that list quoted strings. Commas and comparison signs of an entry are looked for without regard to quotes.
    Main statement: as long as no string has a comma in it, one string becomes an equality and several become
    a list of exactly these strings, unless one of several strings has a comparison sign; a negated list
    always does. A single string with a comma is kept just if it has a comparison sign, too. -/

namespace ProcessForge.Decision

open List Bool Text
open String (ofList toList_ofList toList_inj)

/-! ### Quoted strings -/

def quoted (s : String) : String := "\"" ++ s ++ "\""

def quotedEntry (strings : List String) : String := ",".intercalate (strings.map quoted)

/-- The test for one quoted string, or for several ones. -/
def quotedTest (name : String) : List String → String
  | [s] => name ++ " == " ++ quoted s
  | strings => "[" ++ ", ".intercalate (strings.map quoted) ++ "].contains(" ++ name ++ ")"

def HasSign (s : String) : Prop := '>' ∈ s.toList ∨ '<' ∈ s.toList ∨ '=' ∈ s.toList

instance : DecidablePred HasSign := fun s =>
  inferInstanceAs (Decidable ('>' ∈ s.toList ∨ '<' ∈ s.toList ∨ '=' ∈ s.toList))

theorem toList_quoted (s : String) : (quoted s).toList = '"' :: (s.toList ++ ['"']) := by
  simp [quoted]

theorem toList_quotedEntry (strings : List String) :
    (quotedEntry strings).toList = [','].intercalate (strings.map fun s => (quoted s).toList) := by
  rw [quotedEntry, String.toList_intercalate, map_map]
  rfl

theorem quotedEntry_singleton (s : String) : quotedEntry [s] = quoted s := by
  simp [quotedEntry]

theorem toList_quotedEntry_cons (s next : String) (tl : List String) : (quotedEntry (s :: next :: tl)).toList
      = (quoted s).toList ++ ',' :: (quotedEntry (next :: tl)).toList := by
  simp [toList_quotedEntry, intercalate_cons_cons]

theorem exists_toList_quotedEntry : ∀ (s : String) (tl : List String),
    ∃ i, (quotedEntry (s :: tl)).toList = '"' :: (i ++ ['"'])
  | s, [] => ⟨s.toList, by rw [quotedEntry_singleton, toList_quoted]⟩
  | s, next :: tl => by
    obtain ⟨i, hin⟩ := exists_toList_quotedEntry next tl
    exact ⟨s.toList ++ '"' :: ',' :: '"' :: i, by
      rw [toList_quotedEntry_cons, hin, toList_quoted]; simp⟩

theorem mem_quotedEntry_iff {c : Char} (hq : c ≠ '"') (hc : c ≠ ',') : ∀ strings : List String,
    c ∈ (quotedEntry strings).toList ↔ ∃ s ∈ strings, c ∈ s.toList
  | [] => by simp [toList_quotedEntry]
  | [s] => by simp [quotedEntry_singleton, toList_quoted, hq]
  | s :: next :: tl => by
    rw [toList_quotedEntry_cons, mem_append, mem_cons, mem_quotedEntry_iff hq hc (next :: tl), toList_quoted]
    simp [hq, hc]

theorem hasRelation_quotedEntry (strings : List String) :
    hasRelation (quotedEntry strings).toList ↔ ∃ s ∈ strings, HasSign s := by
  have hs : ∀ c ∈ ['>', '<', '='], (c ∈ (quotedEntry strings).toList ↔ ∃ s ∈ strings, c ∈ s.toList) := by
    intro c hc
    apply mem_quotedEntry_iff <;> rintro rfl <;> exact absurd hc (by decide)
  have ha : hasRelation (quotedEntry strings).toList ↔ '>' ∈ (quotedEntry strings).toList ∨
      '<' ∈ (quotedEntry strings).toList ∨ '=' ∈ (quotedEntry strings).toList := by
    simp only [hasRelation, any_eq_true, or_eq_true, beq_iff_eq]
    constructor
    · rintro ⟨c, hc, (rfl | rfl) | rfl⟩ <;> simp [hc]
    · rintro (hc | hc | hc) <;> exact ⟨_, hc, by simp⟩
  rw [ha, hs _ (by simp), hs _ (by simp), hs _ (by simp)]
  simp [HasSign, and_or_left, exists_or]

/-! ### One value -/

theorem trimChars_between {f last : Char} (hf : isBlank f = false) (hl : isBlank last = false) (i : List Char) :
    trimChars (f :: (i ++ [last])) = f :: (i ++ [last]) := by
  apply trimBy_eq_self
  · intro c hc
    obtain rfl : f = c := by simpa using hc
    exact hf
  · intro c hc
    rw [← cons_append, getLast?_concat] at hc
    obtain rfl : last = c := by simpa using hc
    exact hl

theorem literal_between (type : Option String) (i : List Char) :
    literal type (some (ofList ('"' :: (i ++ ['"'])))) = ofList ('"' :: (i ++ ['"'])) := by
  have ht : trim (ofList ('"' :: (i ++ ['"']))) = ofList ('"' :: (i ++ ['"'])) := by
    rw [trim, toList_ofList, trimChars_between (by decide) (by decide)]
  simp only [literal, ht, toList_ofList]
  rfl

theorem singleCondition_between (type : Option String) (i : List Char) :
    singleCondition type ('"' :: (i ++ ['"'])) = .equals (ofList ('"' :: (i ++ ['"']))) := by
  have hl : ∀ b, (lower (ofList ('"' :: (i ++ ['"']))) == flagWord b) = false := by
    intro b
    rw [beq_eq_false_iff_ne]
    intro heq
    have hh : (flagWord b).toList.head? = some '"' := by
      rw [← heq, lower, toList_ofList, toList_ofList]
      exact head?_lowerChars (by decide) _
    cases b <;> exact absurd hh (by decide)
  have ht := hl true
  have hf := hl false
  simp only [flagWord, if_true, false_eq_true, if_false] at ht hf
  have hr : readRange? ('"' :: (i ++ ['"'])) = none := rfl
  have hv : singleCondition type ('"' :: (i ++ ['"'])) = valueCondition type ('"' :: (i ++ ['"'])) := rfl
  simp only [hv, valueCondition, ht, hf, Bool.or_self, false_eq_true, if_false, hr, literal_between]

/-! ### Conditions of entries -/

/-- An entry of quoted strings is a list if it has a comma and no comparison sign, and else one value. -/
theorem condition_quotedEntry (type : Option String) (s : String) (rest : List String) :
    condition type (quotedEntry (s :: rest)) =
      if ',' ∈ (quotedEntry (s :: rest)).toList ∧ ¬ ∃ t ∈ s :: rest, HasSign t then
        .oneOf (literals type (quotedEntry (s :: rest)).toList) else .equals (quotedEntry (s :: rest)) := by
  have hr := hasRelation_quotedEntry (s :: rest)
  have ht : quotedEntry (s :: rest) = ofList (quotedEntry (s :: rest)).toList := String.ofList_toList.symm
  obtain ⟨inner, hin⟩ := exists_toList_quotedEntry s rest
  rw [hin] at hr ht
  have hf : (('"' :: (inner ++ ['"'])).isEmpty || '"' :: (inner ++ ['"']) == ['-']) = false := rfl
  have hn : negated? ('"' :: (inner ++ ['"'])) = none := rfl
  rw [condition, hin, trimChars_between (by decide) (by decide), ht]
  simp only [conditionOf, hf, hn, false_eq_true, if_false, singleCondition_between, ← hr]
  simp

/-- A list of quoted strings without commas has exactly these strings as its items. -/
theorem literals_quotedEntry (type : Option String) {strings : List String} (hn : strings ≠ [])
    (hc : ∀ s ∈ strings, ',' ∉ s.toList) : literals type (quotedEntry strings).toList = strings.map quoted := by
  have hpi : splitAtChar ',' (quotedEntry strings).toList = strings.map fun s => (quoted s).toList := by
    rw [toList_quotedEntry]
    refine splitAtChar_intercalate (by simpa using hn) fun p hp => ?_
    obtain ⟨s, hs, rfl⟩ := mem_map.mp hp
    simpa [toList_quoted] using hc s hs
  have hf : (strings.map fun s => (quoted s).toList).filter (fun v => !v.all isBlank)
      = strings.map fun s => (quoted s).toList := by
    rw [filter_eq_self]
    intro p hp
    obtain ⟨s, -, rfl⟩ := mem_map.mp hp
    have hq : isBlank '"' = false := by decide
    simp [toList_quoted, hq]
  rw [literals, hpi, hf, map_map]
  refine map_congr_left fun s _ => ?_
  simp only [Function.comp_apply, toList_quoted, literal_between]
  rw [← toList_quoted, String.ofList_toList]

theorem condition_negatedEntry (type : Option String) {strings : List String} (hn : strings ≠ [])
    (hc : ∀ s ∈ strings, ',' ∉ s.toList) :
    condition type ("not(" ++ quotedEntry strings ++ ")") = .noneOf (strings.map quoted) := by
  obtain ⟨s, rest, rfl⟩ := exists_cons_of_ne_nil hn
  obtain ⟨inner, hin⟩ := exists_toList_quotedEntry s rest
  have hl : (quotedEntry (s :: rest)).toList = trimChars (quotedEntry (s :: rest)).toList := by
    rw [hin, trimChars_between (by decide) (by decide)]
  have ht : ("not(" ++ quotedEntry (s :: rest) ++ ")").toList
      = "not(".toList ++ ((quotedEntry (s :: rest)).toList ++ [')']) := by simp
  have htr : trimChars ("not(".toList ++ ((quotedEntry (s :: rest)).toList ++ [')']))
      = "not(".toList ++ ((quotedEntry (s :: rest)).toList ++ [')']) :=
    @trimChars_between 'n' ')' (by decide) (by decide) ("ot(".toList ++ (quotedEntry (s :: rest)).toList)
  rw [condition, ht, htr, conditionOf_exclusion, ← hl, literals_quotedEntry type hn hc]

/-! ### Texts of conditions -/

theorem getLast?_render_oneOf (is : List String) (name : String) :
    ((Condition.oneOf is).render name).toList.getLast? = some ')' := by
  have ht : ((Condition.oneOf is).render name).toList
      = (listLiteral is ++ ".contains(" ++ name).toList ++ [')'] := by simp [Condition.render]
  rw [ht, getLast?_concat]

theorem getLast?_render_equals (s : String) (tl : List String) (name : String) :
    ((Condition.equals (quotedEntry (s :: tl))).render name).toList.getLast? = some '"' := by
  obtain ⟨i, hin⟩ := exists_toList_quotedEntry s tl
  have ht : ((Condition.equals (quotedEntry (s :: tl))).render name).toList
      = ((name ++ " == ").toList ++ '"' :: i) ++ ['"'] := by simp [Condition.render, hin]
  rw [ht, getLast?_concat]

theorem render_oneOf_ne (is : List String) (s : String) (tl : List String) (name : String) :
    (Condition.oneOf is).render name ≠ (Condition.equals (quotedEntry (s :: tl))).render name := by
  intro heq
  have hl := getLast?_render_oneOf is name
  rw [heq, getLast?_render_equals] at hl
  cases hl

theorem quotedTest_singleton (name s : String) :
    quotedTest name [s] = (Condition.equals (quotedEntry [s])).render name := by
  rfl

theorem quotedTest_cons (name s next : String) (tl : List String) :
    quotedTest name (s :: next :: tl) = (Condition.oneOf ((s :: next :: tl).map quoted)).render name := by
  rw [← toList_inj]
  simp [quotedTest, Condition.render, listLiteral]

/-- One quoted string is kept just if it has no comma in it, or a comparison sign as well. Quoted strings without
    commas are kept just if there is only one of them, or none of them has a comparison sign; and negated they
    are always kept. -/
theorem quoted_strings_kept_iff (type : Option String) (name : String) {strings : List String} (hne : strings ≠ []) :
    (∀ s, strings = [s] → ((condition type (quotedEntry strings)).render name = quotedTest name strings ↔
      ',' ∉ s.toList ∨ HasSign s)) ∧
    ((∀ s ∈ strings, ',' ∉ s.toList) → ((condition type (quotedEntry strings)).render name = quotedTest name strings ↔
        strings.length = 1 ∨ ∀ s ∈ strings, ¬ HasSign s) ∧
      (condition type ("not(" ++ quotedEntry strings ++ ")")).render name
        = "!([" ++ ", ".intercalate (strings.map quoted) ++ "].contains(" ++ name ++ "))") := by
  have hsingle : ∀ s, (condition type (quotedEntry [s])).render name = quotedTest name [s] ↔
      ',' ∉ s.toList ∨ HasSign s := by
    intro s
    have hcomma : ',' ∈ (quotedEntry [s]).toList ↔ ',' ∈ s.toList := by
      simp [quotedEntry_singleton, toList_quoted]
    rw [condition_quotedEntry, quotedTest_singleton]
    by_cases hlist : ',' ∈ s.toList ∧ ¬ HasSign s
    · rw [if_pos ⟨hcomma.mpr hlist.1, by simpa using hlist.2⟩]
      exact iff_of_false (render_oneOf_ne _ s [] name) fun hkept => hkept.elim (· hlist.1) hlist.2
    · rw [if_neg fun h => hlist ⟨hcomma.mp h.1, by simpa using h.2⟩]
      exact iff_of_true rfl (by simpa [or_iff_not_imp_left] using hlist)
  obtain ⟨s, rest, rfl⟩ := exists_cons_of_ne_nil hne
  refine ⟨?_, fun hcomma => ⟨?_, ?_⟩⟩
  · rintro t heq
    rw [heq]
    exact hsingle t
  · cases rest with
    | nil => simpa [hcomma s (by simp)] using hsingle s
    | cons next rest =>
      have hmem : ',' ∈ (quotedEntry (s :: next :: rest)).toList := by simp [toList_quotedEntry_cons]
      rw [condition_quotedEntry, quotedTest_cons, literals_quotedEntry type (by simp) hcomma]
      by_cases hsign : ∃ t ∈ s :: next :: rest, HasSign t
      · rw [if_neg fun hlist => hlist.2 hsign]
        refine iff_of_false (render_oneOf_ne _ s (next :: rest) name).symm ?_
        rintro (hlength | hnone)
        · simp at hlength
        · obtain ⟨t, ht, hsign⟩ := hsign
          exact hnone t ht hsign
      · rw [if_pos ⟨hmem, hsign⟩]
        exact iff_of_true rfl (Or.inr fun t ht hsign' => hsign ⟨t, ht, hsign'⟩)
  · rw [condition_negatedEntry type hne hcomma, ← toList_inj]
    simp [Condition.render, listLiteral]

/-- Strings with blanks, brackets and words of the entry language in them. -/
theorem quoted_strings_kept_iff_words : (∀ s ∈ ["", " b ", "not(c)", "true"], ',' ∉ s.toList) ∧
    (condition none (quotedEntry ["", " b ", "not(c)", "true"])).render "status"
      = quotedTest "status" ["", " b ", "not(c)", "true"] ∧
    (condition none ("not(" ++ quotedEntry ["", " b ", "not(c)", "true"] ++ ")")).render "status"
      = "!([" ++ ", ".intercalate (["", " b ", "not(c)", "true"].map quoted) ++ "].contains(" ++ "status" ++ "))" := by
  have hcomma : ∀ s ∈ ["", " b ", "not(c)", "true"], ',' ∉ s.toList := by decide +kernel
  have hsign : ∀ s ∈ ["", " b ", "not(c)", "true"], ¬ HasSign s := by decide +kernel
  have hkept := (@quoted_strings_kept_iff none "status" ["", " b ", "not(c)", "true"] (by simp)).2 hcomma
  exact ⟨hcomma, hkept.1.mpr (Or.inr hsign), hkept.2⟩

/-- A comma inside of quotes cuts a string in two, also in a negated list, and a comparison sign inside of quotes makes
    one value of several strings. -/
theorem quoted_strings_broken :
    ((condition (some "string") (quotedEntry ["a,b"])).render "x" = "[\"a, \"b\"\"].contains(x)" ∧
      quotedTest "x" ["a,b"] = "x == \"a,b\"") ∧
    ((condition (some "string") (quotedEntry ["a=b", "c"])).render "x" = "x == \"a=b\",\"c\"" ∧
      quotedTest "x" ["a=b", "c"] = "[\"a=b\", \"c\"].contains(x)") ∧
    (condition (some "string") ("not(" ++ quotedEntry ["a,b"] ++ ")")).render "x"
      = "!([\"a, \"b\"\"].contains(x))" := by
  decide +kernel

end ProcessForge.Decision
