import ProcessForge.Proofs.Decision.Reading

/-! What entries of decision tables mean. An entry is spelled in a small grammar that depends on the kind of
    its column: constants, lists of constants and negated lists, and for numbers also comparisons and ranges.
    Main statement: the condition that is written for an entry is read back as a formula on the variable of
    the column, and the formula holds for exactly the values that the entry admits. -/

namespace ProcessForge.Decision

open List Text
open Option (some.inj bind_some isSome_map)
open String (ofList toList_ofList toList)

variable {type : Option String} {name : String} {cs rest tl gap : List Char} {n : Int} {item : Literal} {c : Char}
  {items its : List Literal}

/-! ### Meaning of entries -/

/-- What the entries of a column are about. -/
inductive ColumnKind where
  | number | flag | text
  deriving DecidableEq, Repr

def ColumnKind.ofType (type : Option String) : ColumnKind :=
  match scriptType? type with
  | none | some "String" => text
  | some "Boolean" => flag
  | some _ => number

theorem ColumnKind.ofType_ne_text (h : scriptType? type = some name) (hn : name ≠ "String") : ofType type ≠ text := by
  unfold ofType
  split
  · next hs => rw [h] at hs; cases hs
  · next hs => rw [h] at hs; exact absurd (some.inj hs) hn
  · decide
  · decide

/-- What an entry asks of the value of its column. -/
inductive Cell where
  | any
  | relates (r : Relation) (value : Literal)
  | oneOf (items : List Literal)
  | noneOf (items : List Literal)
  | within (low high : Literal)
  deriving DecidableEq, Repr

variable {V : Type}

def Cell.holds (M : Meaning V) (v : V) : Cell → Bool
  | any => true
  | relates r value => M.relates r v (M.value value)
  | oneOf items => items.any fun item => M.equal v (M.value item)
  | noneOf items => !items.any fun item => M.equal v (M.value item)
  | within low high => M.atMost (M.value low) v && M.atMost v (M.value high)

/-! ### Spelling of entries -/

variable {k : ColumnKind}

/-- Words that are put into quotes. -/
structure IsWord (cs : List Char) : Prop where
  nonempty : cs ≠ []
  chars : ∀ c ∈ cs, isNameChar c = true
  notNull : cs ≠ "null".toList

/-- How constants are spelled in a column. -/
inductive IsConstant : ColumnKind → List Char → Literal → Prop
  | number {cs : List Char} {n : Int} : IsNumeral cs n → IsConstant .number cs (.number n)
  | word {cs : List Char} : IsWord cs → IsConstant .text cs (.text (ofList cs))

/-- Constants with commas between them; blanks around them do not matter. -/
def AreConstants (kind : ColumnKind) (cs : List Char) (items : List Literal) : Prop :=
  Forall₂ (fun piece item => IsConstant kind (trimChars piece) item) (splitAtChar ',' cs) items

def flagWord (b : Bool) : String := if b then "true" else "false"

/-- How entries are spelled in a column, without the blanks around them. -/
inductive Spelled : ColumnKind → List Char → Cell → Prop
  | empty {kind : ColumnKind} : Spelled kind [] .any
  | dash {kind : ColumnKind} : Spelled kind ['-'] .any
  | flag {kind : ColumnKind} {cs : List Char} (b : Bool) : cs.map Char.toLower = (flagWord b).toList →
      Spelled kind cs (.relates .equal (.flag b))
  | constant {kind : ColumnKind} {cs : List Char} {item : Literal} : IsConstant kind cs item →
      (∀ b : Bool, cs.map Char.toLower ≠ (flagWord b).toList) →
      Spelled kind cs (.relates .equal item)
  | list {kind : ColumnKind} {cs : List Char} {items : List Literal} :
      AreConstants kind cs items → 2 ≤ items.length → Spelled kind cs (.oneOf items)
  | exclusion {kind : ColumnKind} {cs : List Char} {items : List Literal} :
      AreConstants kind cs items → Spelled kind ("not(".toList ++ (cs ++ [')'])) (.noneOf items)
  | comparison {r : Relation} {gap cs : List Char} {n : Int} : r ≠ .equal → IsGap gap →
      IsNumeral cs n → Spelled .number (r.sign ++ (gap ++ cs)) (.relates r (.number n))
  | equality {gap cs : List Char} {n : Int} : IsGap gap → IsNumeral cs n →
      Spelled .number ('=' :: (gap ++ cs)) (.relates .equal (.number n))
  | range {gap gap' cs cs' : List Char} {low high : Int} : IsGap gap → IsGap gap' →
      IsNumeral cs low → IsNumeral cs' high →
      Spelled .number (cs ++ (gap ++ (['.', '.'] ++ (gap' ++ cs')))) (.within (.number low) (.number high))

/-! ### Formulas of entries -/

/-- The formula on a variable that an entry stands for. -/
def Cell.formula (name : String) : Cell → Formula
  | any => .constant true
  | relates r value => .compare name r value
  | oneOf items => .member items name
  | noneOf items => .negation (.member items name)
  | within low high => .both (.compare name .atLeast low) (.compare name .atMost high)

theorem Cell.eval_formula (M : Meaning V) {values : String → Option V} {v : V} (h : values name = some v)
    (cell : Cell) : (cell.formula name).eval M values = some (cell.holds M v) := by
  cases cell with
  | any => rfl
  | relates r value => simp [formula, Formula.eval, holds, h]
  | oneOf its => simp [formula, Formula.eval, holds, h]
  | noneOf its => simp [formula, Formula.eval, holds, h]
  | within low high =>
    simp only [formula, Formula.eval, holds, h, Option.map_some, bind_some, Meaning.relates]
    cases M.atMost (M.value low) v <;> rfl

/-! ### Characters of constants -/

theorem IsNumeral.ne_nil (h : IsNumeral cs n) : cs ≠ [] := by
  cases h with
  | natural hn _ => exact hn
  | negative _ _ => simp

theorem IsNumeral.chars (h : IsNumeral cs n) : ∀ c ∈ cs, c.isDigit ∨ c = '-' := by
  intro c hc
  cases h with
  | natural _ hd => exact Or.inl (hd c hc)
  | negative _ hd =>
    rcases mem_cons.mp hc with rfl | hc
    · exact Or.inr rfl
    · exact Or.inl (hd c hc)

theorem IsConstant.ne_nil (h : IsConstant k cs item) : cs ≠ [] := by
  cases h with
  | number h => exact h.ne_nil
  | word h => exact h.nonempty

theorem IsConstant.ne_dash (h : IsConstant k cs item) : cs ≠ ['-'] := by
  rintro rfl
  cases h with
  | number h =>
    cases h with
    | natural _ hd => exact absurd (hd '-' (by simp)) (by decide)
    | negative hn _ => exact hn rfl
  | word h => exact absurd (h.chars '-' (by simp)) (by decide)

theorem IsConstant.chars (h : IsConstant k cs item) : ∀ c ∈ cs, isNameChar c ∨ c = '-' := by
  intro c hc
  cases h with
  | number h => exact (h.chars c hc).imp_left isNameChar_of_isDigit
  | word h => exact Or.inl (h.chars c hc)

theorem IsConstant.not_isBlank (h : IsConstant k cs item) : ∀ c ∈ cs, isBlank c = false := by
  intro c hc
  rcases h.chars c hc with hc | rfl
  · exact not_isBlank_of_isNameChar hc
  · decide

theorem IsConstant.trimChars_eq (h : IsConstant k cs item) : trimChars cs = cs :=
  trimBy_eq_self (fun c hc => h.not_isBlank c (mem_of_mem_head? hc))
    fun c hc => h.not_isBlank c (mem_of_mem_getLast? hc)

/-- The signs by which entries other than constants and ranges are told. -/
def entrySigns : List Char := ['(', ',', '!', '<', '>', '=']

theorem not_mem_entrySigns (h : isNameChar c ∨ c = '-') : c ∉ entrySigns := by
  intro hc
  rcases h with h | rfl
  · simp only [entrySigns, mem_cons, not_mem_nil, or_false] at hc
    rcases hc with rfl | rfl | rfl | rfl | rfl | rfl <;> exact absurd h (by decide)
  · exact absurd hc (by decide)

theorem not_mem_entrySigns_of_isBlank (h : isBlank c) : c ∉ entrySigns := by
  intro hc
  simp only [entrySigns, mem_cons, not_mem_nil, or_false] at hc
  rcases hc with rfl | rfl | rfl | rfl | rfl | rfl <;> exact absurd h (by decide)

/-! ### Conditions of entries -/

theorem negated?_eq_none (h : '(' ∉ cs) : negated? cs = none := by
  rw [negated?, Option.bind_eq_none_iff]
  intro tl hr
  have hc := eq_append_of_dropPrefix? hr
  exact absurd (hc ▸ by simp : '(' ∈ cs) h

theorem negated?_not (cs : List Char) : negated? ("not(".toList ++ (cs ++ [')'])) = some cs := by
  have he : Text.dropSuffix? [')'] (cs ++ [')']) = some cs := by
    simp [Text.dropSuffix?, Text.dropPrefix?]
  rw [negated?, dropPrefix?_append, bind_some, he]

theorem conditionOf_of_single (hn : cs ≠ []) (hd : cs ≠ ['-']) (hp : '(' ∉ cs) (hc : ',' ∉ cs) :
    conditionOf type cs = singleCondition type cs := by
  have hf : (cs.isEmpty || cs == ['-']) = false := by simpa using ⟨hn, hd⟩
  have hl : (cs.contains ',' && !hasRelation cs) = false := by simp [hc]
  simp only [conditionOf, hf, negated?_eq_none hp, hl, Bool.false_eq_true, if_false]

theorem conditionOf_of_no_sign (hn : cs ≠ []) (hd : cs ≠ ['-']) (h : ∀ c ∈ cs, c ∉ entrySigns) :
    conditionOf type cs = valueCondition type cs := by
  rw [conditionOf_of_single hn hd (fun hc => h _ hc (by decide)) fun hc => h _ hc (by decide)]
  unfold singleCondition
  split
  case h_5 => rfl
  all_goals exact absurd (h _ (mem_cons_self ..)) (by decide)

/-- A value that is neither quoted nor null is put into quotes in columns of texts only. -/
theorem toList_literal (hc : trimChars cs = c :: rest) (hq : c ≠ '"') (hm : c ≠ '\'')
    (hn : c :: rest ≠ "null".toList) : (literal type (some (ofList cs))).toList
      = if ColumnKind.ofType type = .text then '"' :: (c :: rest ++ ['"']) else c :: rest := by
  have ht : trim (ofList cs) = ofList (c :: rest) := by
    rw [trim, toList_ofList, hc]
  have hne : ofList (c :: rest) ≠ "null" := by
    intro heq
    exact hn (by rw [← heq, toList_ofList])
  have hp : (c == '"' || c == '\'' || ofList (c :: rest) == "null") = false := by
    rw [Bool.or_eq_false_iff, Bool.or_eq_false_iff]
    exact ⟨⟨beq_false_of_ne hq, beq_false_of_ne hm⟩, beq_false_of_ne hne⟩
  simp only [literal, ht, toList_ofList, hp, Bool.false_eq_true, if_false]
  split
  · next hs => rw [if_pos (by rw [ColumnKind.ofType, hs])]; simp
  · next hs => rw [if_pos (by simp [ColumnKind.ofType, hs])]; simp
  · next name hna hs =>
    rw [if_neg (ColumnKind.ofType_ne_text hs fun h => hna (by rw [h])), toList_ofList]

theorem IsConstant.isWritten (h : IsConstant (ColumnKind.ofType type) (trimChars cs) item) :
    IsWritten item (literal type (some (ofList cs))).toList := by
  obtain ⟨c, tl, hcs⟩ := exists_cons_of_ne_nil h.ne_nil
  have hc : isNameChar c ∨ c = '-' := h.chars c (by simp [hcs])
  have hq : c ≠ '"' := by rintro rfl; exact absurd hc (by decide)
  have hm : c ≠ '\'' := by rintro rfl; exact absurd hc (by decide)
  rw [hcs] at h
  generalize hk : ColumnKind.ofType type = k at h
  cases h with
  | number hn =>
    have hnu : c :: tl ≠ "null".toList := by
      intro heq
      rcases hn.chars 'n' (by rw [heq]; decide) with hd | hd <;> exact absurd hd (by decide)
    rw [toList_literal hcs hq hm hnu, if_neg (by rw [hk]; decide)]
    exact .number hn
  | word hw =>
    rw [toList_literal hcs hq hm hw.notNull, if_pos hk]
    refine .text fun hme => ?_
    exact absurd (hw.chars _ hme) (by decide)

/-! ### Lists of constants -/

theorem areConstants_trimChars : AreConstants k (trimChars cs) items ↔ AreConstants k cs items := by
  have hp := map_trimBy_splitAtChar isBlank ',' (by decide) cs
  have hif : ∀ ds : List Char, AreConstants k ds items ↔
      Forall₂ (IsConstant k) ((splitAtChar ',' ds).map (trimBy isBlank)) items :=
    fun ds => forall₂_map_left_iff.symm
  rw [hif, hif, trimChars, hp]

theorem AreConstants.of_mem (h : AreConstants k cs its) {p : List Char}
    (hp : p ∈ splitAtChar ',' cs) : ∃ item, IsConstant k (trimChars p) item := by
  unfold AreConstants at h
  generalize splitAtChar ',' cs = ps at h hp
  induction h with
  | nil => cases hp
  | @cons first item ps its hf _ ih =>
    rcases mem_cons.mp hp with rfl | hp
    · exact ⟨item, hf⟩
    · exact ih hp

theorem AreConstants.isWritten (h : AreConstants (ColumnKind.ofType type) cs its) :
    Forall₂ IsWritten its ((literals type cs).map toList) := by
  have hf : (splitAtChar ',' cs).filter (fun v => !v.all isBlank) = splitAtChar ',' cs := by
    rw [filter_eq_self]
    intro p hp
    obtain ⟨item, hit⟩ := h.of_mem hp
    by_contra hb
    apply hit.ne_nil
    have hd : p.dropWhile isBlank = [] := by
      simpa [dropWhile_eq_nil_iff] using hb
    rw [trimChars, trimBy, hd]
    rfl
  rw [literals, hf, map_map, forall₂_map_right_iff]
  exact (h.imp fun p item hit => hit.isWritten).flip

theorem AreConstants.literals_ne_nil (h : AreConstants (ColumnKind.ofType type) cs its) :
    (literals type cs).map toList ≠ [] := by
  intro hn
  have hit : its = [] := forall₂_nil_right_iff.mp (hn ▸ h.isWritten)
  rw [hit] at h
  exact splitAtChar_ne_nil ',' cs (forall₂_nil_right_iff.mp h)

theorem AreConstants.chars (h : AreConstants k cs its) : ∀ c ∈ cs, c = ',' ∨ isBlank c ∨ isNameChar c ∨ c = '-' := by
  intro c hc
  rcases exists_mem_splitAtChar ',' hc with hc | ⟨p, hp, hc⟩
  · exact Or.inl hc
  · obtain ⟨item, hit⟩ := h.of_mem hp
    obtain ⟨pre, post, hs, hb, ha⟩ := exists_trimBy isBlank p
    rw [hs, mem_append, mem_append] at hc
    rcases hc with (hc | hc) | hc
    · exact Or.inr (Or.inl (hb c hc))
    · exact Or.inr (Or.inr (hit.chars c hc))
    · exact Or.inr (Or.inl (ha c hc))

/-! ### Ranges -/

theorem toNat_of_isDigit (h : c.isDigit) : 48 ≤ c.toNat ∧ c.toNat ≤ 57 := by
  simpa [Char.isDigit, UInt32.le_iff_toNat_le] using h

theorem isDigit_of_char (h : c.isDigit) : isDigit c := by
  rw [isDigit, digitValue?, isSome_map, find?_isSome]
  exact ⟨48, by decide, by simpa using toNat_of_isDigit h⟩

theorem not_isDigit_of_isBlank (h : isBlank c) : isDigit c = false := by
  have ht : ∀ z ∈ digitZeros, ∀ k < 10, isBlank (Char.ofNat (z + k)) = false := by
    decide +kernel
  by_contra hd
  rw [Bool.not_eq_false, isDigit, digitValue?, isSome_map, find?_isSome] at hd
  obtain ⟨z, hz, hr⟩ := hd
  simp only [Bool.and_eq_true, decide_eq_true_eq] at hr
  have hb := ht z hz (c.toNat - z) (by omega)
  rw [Nat.add_sub_cancel' hr.1, Char.ofNat_toNat, h] at hb
  cases hb

theorem readUnsigned?_append {ds : List Char} (hne : ds ≠ []) (hd : ∀ c ∈ ds, c.isDigit)
    (hdi : ∀ c ∈ tl.head?, isDigit c = false)
    (hp : ∀ post, tl = '.' :: post → ∀ c ∈ post.head?, isDigit c = false) :
    readUnsigned? (ds ++ tl) = some (ds, tl) := by
  obtain ⟨ht, hdr⟩ := takeWhile_append_of_ends (fun c hc => isDigit_of_char (hd c hc)) hdi
  have hs : ds.isEmpty = false := by simpa using hne
  simp only [readUnsigned?, ht, hdr, hs, Bool.false_eq_true, if_false]
  split
  · next post =>
    have hn : post.takeWhile isDigit = [] := by
      cases post with
      | nil => rfl
      | cons c post => simp [hp _ rfl c rfl]
    simp [hn]
  · rfl

theorem readDecimal?_append (h : IsNumeral cs n) (hdi : ∀ c ∈ rest.head?, isDigit c = false)
    (hp : ∀ post, rest = '.' :: post → ∀ c ∈ post.head?, isDigit c = false) :
    readDecimal? (cs ++ rest) = some (cs, rest) := by
  cases h with
  | natural hn hd =>
    have hr := readUnsigned?_append hn hd hdi hp
    obtain ⟨c, tl, rfl⟩ := exists_cons_of_ne_nil hn
    unfold readDecimal?
    split
    · next heq =>
      obtain ⟨rfl, -⟩ := cons.inj heq
      exact absurd (hd '-' (by simp)) (by decide)
    · exact hr
  | negative hn hd =>
    rw [cons_append, readDecimal?, readUnsigned?_append hn hd hdi hp]
    rfl

theorem IsNumeral.head?_not_isBlank (h : IsNumeral cs n) : ∀ c ∈ cs.head?, isBlank c = false := fun c hc =>
  IsConstant.not_isBlank (.number h) c (mem_of_mem_head? hc)

variable {gap' cs' number : List Char} {low high : Int} {r : Relation} {texts : List String} {b : Bool} {cell : Cell}

theorem readRange?_append (hg : IsGap gap) (hg' : IsGap gap') (h : IsNumeral cs low) (h' : IsNumeral cs' high) :
    readRange? (cs ++ (gap ++ (['.', '.'] ++ (gap' ++ cs')))) = some (ofList cs, ofList cs') := by
  have hl : readDecimal? (cs ++ (gap ++ (['.', '.'] ++ (gap' ++ cs'))))
      = some (cs, gap ++ (['.', '.'] ++ (gap' ++ cs'))) := by
    apply readDecimal?_append h
    · cases gap with
      | nil => simp; decide
      | cons c gap =>
        intro d hd
        obtain rfl : c = d := by simpa using hd
        exact not_isDigit_of_isBlank (hg c (by simp))
    · intro post ha
      cases gap with
      | nil =>
        obtain rfl : post = '.' :: (gap' ++ cs') := by simpa using ha.symm
        simp
        decide
      | cons c gap =>
        obtain ⟨rfl, -⟩ := cons.inj ha
        exact absurd (hg '.' (by simp)) (by decide)
  have hdo : Text.dropPrefix? ['.', '.'] ((gap ++ (['.', '.'] ++ (gap' ++ cs'))).dropWhile isBlank)
      = some (gap' ++ cs') := by
    rw [dropWhile_append_of_pos hg]
    exact dropPrefix?_append ['.', '.'] _
  have hs : (gap' ++ cs').dropWhile isBlank = cs' := by
    rw [dropWhile_append_of_pos hg', dropWhile_eq_self h'.head?_not_isBlank]
  have hh : readDecimal? cs' = some (cs', []) := by
    have he := @readDecimal?_append cs' [] high h' (by simp) (by simp)
    rwa [append_nil] at he
  simp only [readRange?, hl, hdo, hs, hh, Option.bind_eq_bind, bind_some, isEmpty_nil, if_true, Option.pure_def]

theorem readUnsigned?_suffix (h : readUnsigned? cs = some (number, tl)) : tl <:+ cs := by
  have hd : cs.dropWhile isDigit <:+ cs := dropWhile_suffix _
  simp only [readUnsigned?] at h
  split at h
  · cases h
  · split at h
    · next post heq =>
      have ha : post <:+ cs := (suffix_cons '.' post).trans (heq ▸ hd)
      split at h
      · obtain ⟨-, rfl⟩ := Prod.mk.inj (some.inj h)
        exact heq ▸ hd
      · obtain ⟨-, rfl⟩ := Prod.mk.inj (some.inj h)
        exact (dropWhile_suffix _).trans ha
    · obtain ⟨-, rfl⟩ := Prod.mk.inj (some.inj h)
      exact hd

theorem readDecimal?_suffix (h : readDecimal? cs = some (number, tl)) : tl <:+ cs := by
  unfold readDecimal? at h
  split at h
  · next post =>
    obtain ⟨⟨ds, tl'⟩, hr, heq⟩ := Option.map_eq_some_iff.mp h
    obtain ⟨-, rfl⟩ := Prod.mk.inj heq
    exact (readUnsigned?_suffix hr).trans (suffix_cons '-' post)
  · exact readUnsigned?_suffix h

theorem readRange?_eq_none (h : '.' ∉ cs) : readRange? cs = none := by
  rw [readRange?]
  cases hl : readDecimal? cs with
  | none => rfl
  | some low =>
    obtain ⟨number, tl⟩ := low
    have hdo : Text.dropPrefix? ['.', '.'] (tl.dropWhile isBlank) = none := by
      cases hd : Text.dropPrefix? ['.', '.'] (tl.dropWhile isBlank) with
      | none => rfl
      | some post =>
        have hp : '.' ∈ tl.dropWhile isBlank := by
          rw [eq_append_of_dropPrefix? hd]
          simp
        exact absurd ((readDecimal?_suffix hl).subset ((dropWhile_suffix _).subset hp)) h
    simp [hdo]

/-! ### Conditions in scripts -/

theorem readsTerm_equals {value : String} (hn : IsName name) (h : IsWritten item value.toList) :
    ReadsTerm ((Condition.equals value).render name).toList (.compare name .equal item) := by
  have hr := ReadsTerm.comparison hn .equal isGap_space h
  have ht : (Condition.equals value).render name = name ++ " == " ++ value := rfl
  simpa [ht, Relation.sign] using hr

theorem readsTerm_related (hn : IsName name) (hg : IsGap gap) (h : IsWritten item cs) :
    ReadsTerm ((Condition.related (ofList (r.sign ++ (gap ++ cs)))).render name).toList (.compare name r item) := by
  have hr := ReadsTerm.comparison hn r hg h
  have ht : ∀ test, (Condition.related test).render name = name ++ " " ++ test := fun _ => rfl
  simpa [ht] using hr

theorem readsTerm_oneOf (hn : IsName name)
    (h : Forall₂ IsWritten its (texts.map toList)) (hne : texts.map toList ≠ []) :
    ReadsTerm ((Condition.oneOf texts).render name).toList (.member its name) := by
  have hr := ReadsTerm.member h hne hn
  have ht : (Condition.oneOf texts).render name = listLiteral texts ++ ".contains(" ++ name ++ ")" := rfl
  simpa [ht, listLiteral] using hr

theorem readsTerm_noneOf (hn : IsName name)
    (h : Forall₂ IsWritten its (texts.map toList)) (hne : texts.map toList ≠ []) :
    ReadsTerm ((Condition.noneOf texts).render name).toList (.negation (.member its name)) := by
  have hr := (ReadsTerm.member h hne hn).formula.bracket.negation
  have ht : (Condition.noneOf texts).render name = "!(" ++ listLiteral texts ++ ".contains(" ++ name ++ "))" := rfl
  simpa [ht, listLiteral] using hr

theorem readsTerm_between {low high : String} {item' : Literal} (hn : IsName name) (h : IsWritten item low.toList)
    (h' : IsWritten item' high.toList) : ReadsTerm ((Condition.between low high).render name).toList
      (.both (.compare name .atLeast item) (.compare name .atMost item')) := by
  have hl := ReadsTerm.comparison hn .atLeast isGap_space h
  have hh := ReadsTerm.comparison hn .atMost isGap_space h'
  have hr := (hl.both hh.formula).bracket
  have ht : (Condition.between low high).render name
      = "(" ++ name ++ " >= " ++ low ++ " && " ++ name ++ " <= " ++ high ++ ")" := rfl
  simpa [ht, Relation.sign] using hr

/-! ### Entries and their conditions -/

theorem isWritten_flag (b : Bool) : IsWritten (.flag b) (flagWord b).toList := by
  cases b with
  | false => exact .no
  | true => exact .yes

theorem letter_of_flag (h : cs.map Char.toLower = (flagWord b).toList) : ∀ c ∈ cs, c.toNat < 128 ∧ c ∉ entrySigns := by
  have hw : ∀ d ∈ (flagWord b).toList, d.toNat < 128 ∧ d ∉ entrySigns := by
    cases b <;> exact forall_mem_of_all (by decide)
  intro c hc
  obtain ⟨ha, hsi⟩ := hw c.toLower (h ▸ mem_map_of_mem hc)
  refine ⟨ascii_of_toLower ha, fun hm => hsi ?_⟩
  have hs : ∀ d ∈ entrySigns, d.toLower ∈ entrySigns := forall_mem_of_all (by decide)
  exact hs c hm

theorem lower_eq_flagWord_iff (h : ∀ c ∈ cs, c.toNat < 128) (b : Bool) :
    lower (ofList cs) = flagWord b ↔ cs.map Char.toLower = (flagWord b).toList := by
  rw [lower, toList_ofList, lowerChars_of_ascii h, ← String.toList_inj, toList_ofList]

theorem conditionOf_flag (h : cs.map Char.toLower = (flagWord b).toList) :
    conditionOf type cs = .equals (flagWord b) := by
  have hl := letter_of_flag h
  have hn : cs ≠ [] := by
    rintro rfl
    cases b <;> exact absurd h (by decide)
  have hd : cs ≠ ['-'] := by
    rintro rfl
    cases b <;> exact absurd h (by decide)
  rw [conditionOf_of_no_sign hn hd fun c hc => (hl c hc).2, valueCondition,
    (lower_eq_flagWord_iff (fun c hc => (hl c hc).1) b).mpr h]
  cases b <;> rfl

theorem conditionOf_constant (h : IsConstant k cs item)
    (hfl : ∀ b : Bool, cs.map Char.toLower ≠ (flagWord b).toList) :
    conditionOf type cs = .equals (literal type (some (ofList cs))) := by
  have ha : ∀ c ∈ cs, c.toNat < 128 := by
    intro c hc
    rcases h.chars c hc with hc | rfl
    · exact lt_of_le_of_lt (toNat_of_isNameChar hc).2 (by decide)
    · decide
  have hp : '.' ∉ cs := fun hm => absurd (h.chars '.' hm) (by decide)
  have hl : ∀ b, lower (ofList cs) ≠ flagWord b := fun b hb =>
    hfl b ((lower_eq_flagWord_iff ha b).mp hb)
  have ht : (lower (ofList cs) == "true") = false := beq_false_of_ne (hl true)
  have hf : (lower (ofList cs) == "false") = false := beq_false_of_ne (hl false)
  rw [conditionOf_of_no_sign h.ne_nil h.ne_dash fun c hc => not_mem_entrySigns (h.chars c hc)]
  simp [valueCondition, ht, hf, readRange?_eq_none hp]

theorem conditionOf_list (h : AreConstants k cs its) (hle : 2 ≤ its.length) :
    conditionOf type cs = .oneOf (literals type cs) := by
  have hco : ',' ∈ cs := by
    by_contra hno
    have hl := Forall₂.length_eq h
    rw [splitAtChar_of_not_mem hno, length_singleton] at hl
    omega
  have hf : ∀ c ∈ cs, c ≠ ',' → c ∉ entrySigns := by
    intro c hc hne
    rcases h.chars c hc with heq | hb | hn
    · exact absurd heq hne
    · exact not_mem_entrySigns_of_isBlank hb
    · exact not_mem_entrySigns hn
  have hp : '(' ∉ cs := fun hc => hf _ hc (by decide) (by decide)
  have hr : hasRelation cs = false := by
    rw [hasRelation, any_eq_false]
    intro c hc
    by_cases heq : c = ','
    · rw [heq]
      decide
    · have hs := hf c hc heq
      simp only [entrySigns, mem_cons, not_mem_nil, or_false, not_or] at hs
      simp [hs]
  have hfi : (cs.isEmpty || cs == ['-']) = false := by
    rw [Bool.or_eq_false_iff]
    refine ⟨?_, beq_false_of_ne ?_⟩
    · simpa using ne_nil_of_mem hco
    · rintro rfl
      exact absurd hco (by decide)
  have hli : (cs.contains ',' && !hasRelation cs) := by simp [hco, hr]
  simp only [conditionOf, hfi, negated?_eq_none hp, hli, Bool.false_eq_true, if_false, if_true]

theorem conditionOf_exclusion (cs : List Char) : conditionOf type ("not(".toList ++ (cs ++ [')']))
      = .noneOf (literals type (trimChars cs)) := by
  have hn := negated?_not cs
  simp only [conditionOf, hn]
  rfl

theorem IsNumeral.not_mem_entrySigns (h : IsNumeral cs n) (hg : IsGap gap) : ∀ c ∈ gap ++ cs, c ∉ entrySigns := by
  intro c hc
  rcases mem_append.mp hc with hc | hc
  · exact not_mem_entrySigns_of_isBlank (hg c hc)
  · exact Decision.not_mem_entrySigns (IsConstant.chars (.number h) c hc)

theorem conditionOf_signed {sign : List Char} (hn : sign ≠ []) (hs : ∀ c ∈ sign, c ∉ ['-', '(', ','])
    (hg : IsGap gap) (h : IsNumeral cs n) :
    conditionOf type (sign ++ (gap ++ cs)) = singleCondition type (sign ++ (gap ++ cs)) := by
  have ht := h.not_mem_entrySigns hg
  have hf : ∀ {d : Char}, d ∈ ['-', '(', ','] → d ∈ entrySigns → d ∉ sign ++ (gap ++ cs) := by
    intro d hd he hm
    rcases mem_append.mp hm with hm | hm
    · exact hs d hm hd
    · exact ht d hm he
  obtain ⟨c, tl, rfl⟩ := exists_cons_of_ne_nil hn
  apply conditionOf_of_single (by simp)
  · intro heq
    obtain ⟨rfl, -⟩ := cons.inj heq
    exact hs '-' (by simp) (by decide)
  · exact hf (by decide) (by decide)
  · exact hf (by decide) (by decide)

theorem conditionOf_comparison (hr : r ≠ .equal) (hg : IsGap gap) (h : IsNumeral cs n) :
    conditionOf type (r.sign ++ (gap ++ cs)) = .related (ofList (r.sign ++ (gap ++ cs))) := by
  rw [conditionOf_signed (by cases r <;> decide) (by cases r <;> exact forall_mem_of_all (by decide)) hg h]
  cases r with
  | equal => exact absurd rfl hr
  | unequal | less | greater | atMost | atLeast => rfl

theorem conditionOf_equality (hg : IsGap gap) (h : IsNumeral cs n) :
    conditionOf type ('=' :: (gap ++ cs)) = .equals (ofList cs) := by
  have ht : trimChars (gap ++ cs) = cs := by
    have hc := trimBy_append cs hg isGap_nil
    rw [append_nil] at hc
    exact hc.trans (IsConstant.trimChars_eq (.number h))
  rw [← singleton_append, conditionOf_signed (by decide) (forall_mem_of_all (by decide)) hg h,
    singleton_append, singleCondition, ht]

theorem conditionOf_range (hg : IsGap gap) (hg' : IsGap gap') (h : IsNumeral cs low) (h' : IsNumeral cs' high) :
    conditionOf type (cs ++ (gap ++ (['.', '.'] ++ (gap' ++ cs')))) = .between (ofList cs) (ofList cs') := by
  have hs : ∀ c ∈ cs ++ (gap ++ (['.', '.'] ++ (gap' ++ cs'))), c ∉ entrySigns := by
    intro c hc
    simp only [← append_assoc cs gap, mem_append] at hc
    rcases hc with (hc | hc) | hc | hc
    · exact h.not_mem_entrySigns isGap_nil c (by simpa using hc)
    · exact not_mem_entrySigns_of_isBlank (hg c hc)
    · revert c
      exact forall_mem_of_all (by decide)
    · exact h'.not_mem_entrySigns hg' c (by simpa using hc)
  have hl : ∀ b, lower (ofList (cs ++ (gap ++ (['.', '.'] ++ (gap' ++ cs'))))) ≠ flagWord b := by
    intro b heq
    obtain ⟨c, tl, rfl⟩ := exists_cons_of_ne_nil h.ne_nil
    have hc : c.toNat < 65 := by
      rcases h.chars c (by simp) with hd | rfl
      · exact lt_of_le_of_lt (toNat_of_isDigit hd).2 (by decide)
      · decide
    have hh : ((flagWord b).toList).head? = some c := by
      rw [← heq, lower, toList_ofList, toList_ofList]
      exact head?_lowerChars hc _
    cases b <;> obtain rfl := some.inj hh <;> exact absurd hc (by decide)
  have hda : cs ++ (gap ++ (['.', '.'] ++ (gap' ++ cs'))) ≠ ['-'] := by
    intro heq
    have hle := congrArg length heq
    simp only [length_append, length_cons, length_nil] at hle
    omega
  rw [conditionOf_of_no_sign (by simp) hda hs]
  have ht := beq_false_of_ne (hl true)
  have hf := beq_false_of_ne (hl false)
  simp only [flagWord, if_true, Bool.false_eq_true, if_false] at ht hf
  simp only [valueCondition, ht, hf, Bool.or_self, Bool.false_eq_true, if_false, readRange?_append hg hg' h h']

/-- The condition of an entry is left out if the entry admits everything, and else it is read back as the
    formula of the entry. -/
theorem Spelled.readsTerm (h : Spelled (ColumnKind.ofType type) cs cell) (hn : IsName name) :
    (cell = .any ∧ conditionOf type cs = .always) ∨ (conditionOf type cs ≠ .always ∧
      ReadsTerm ((conditionOf type cs).render name).toList (cell.formula name)) := by
  generalize hk : ColumnKind.ofType type = k at h
  cases h with
  | empty => exact Or.inl ⟨rfl, rfl⟩
  | dash => exact Or.inl ⟨rfl, rfl⟩
  | flag b h =>
    rw [conditionOf_flag h]
    exact Or.inr ⟨nofun, readsTerm_equals hn (isWritten_flag b)⟩
  | constant h hf =>
    rw [conditionOf_constant h hf]
    refine Or.inr ⟨nofun, readsTerm_equals hn (IsConstant.isWritten ?_)⟩
    rwa [h.trimChars_eq, hk]
  | list h hl =>
    rw [conditionOf_list h hl]
    rw [← hk] at h
    exact Or.inr ⟨nofun, readsTerm_oneOf hn h.isWritten h.literals_ne_nil⟩
  | exclusion h =>
    rw [conditionOf_exclusion]
    rw [← hk, ← areConstants_trimChars] at h
    exact Or.inr ⟨nofun, readsTerm_noneOf hn h.isWritten h.literals_ne_nil⟩
  | comparison hr hg h =>
    rw [conditionOf_comparison hr hg h]
    exact Or.inr ⟨nofun, readsTerm_related hn hg (.number h)⟩
  | equality hg h =>
    rw [conditionOf_equality hg h]
    exact Or.inr ⟨nofun, readsTerm_equals hn (by simpa using IsWritten.number h)⟩
  | range hg hg' h h' =>
    rw [conditionOf_range hg hg' h h']
    exact Or.inr ⟨nofun, readsTerm_between hn (by simpa using IsWritten.number h) (by simpa using IsWritten.number h')⟩

theorem ReadsTerm.unique {t : List Char} {f g : Formula} (hf : ReadsTerm t f) (hg : ReadsTerm t g) : f = g := by
  have he : Ends [] := fun _ hc => nomatch hc
  have heq := (hf t.length [] (le_refl _) he).symm.trans (hg t.length [] (le_refl _) he)
  exact congrArg Prod.fst (some.inj heq)

/-- An entry that can be spelled in several ways admits the same values in all of them. -/
theorem Spelled.holds_eq {cell' : Cell} (h : Spelled (ColumnKind.ofType type) cs cell)
    (h' : Spelled (ColumnKind.ofType type) cs cell') (M : Meaning V) (v : V) : cell.holds M v = cell'.holds M v := by
  have hn : IsName "x" := @IsName.of_toList "x" 'x' [] rfl (by decide) (by decide) (by decide)
  rcases h.readsTerm hn with ⟨rfl, ha⟩ | ⟨hs, hr⟩
  · rcases h'.readsTerm hn with ⟨rfl, -⟩ | ⟨hs, -⟩
    · rfl
    · exact absurd ha hs
  · rcases h'.readsTerm hn with ⟨-, ha⟩ | ⟨-, hr'⟩
    · exact absurd ha hs
    · have he : (cell.formula "x").eval M (fun _ => some v) = some (cell.holds M v) := Cell.eval_formula M rfl cell
      rw [hr.unique hr'] at he
      exact some.inj (he.symm.trans (Cell.eval_formula M rfl cell'))

end ProcessForge.Decision
