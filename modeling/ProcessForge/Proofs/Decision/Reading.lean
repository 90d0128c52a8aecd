import Mathlib.Data.List.Forall2
import ProcessForge.Proofs.Decision.Language
import ProcessForge.Proofs.Text.Trim

/-! How texts are read as parts of scripts. Each lemma says of a text that, whatever follows it, reading takes
    exactly this text and gives a certain name, constant, formula or chain. The fuel of the readers is never
    short: the length of the text that is taken is enough. -/

namespace ProcessForge.Decision

open List Option Bool Text

variable {cs rest tl gap t : List Char} {c : Char} {name : String} {l : Literal} {its : List Literal}
  {texts : List (List Char)} {f : Formula}

/-! ### Characters -/

theorem forall_mem_of_all {p : Char → Prop} [DecidablePred p] (h : (cs.all fun c => decide (p c))) :
    ∀ c ∈ cs, p c := fun c hc =>
  of_decide_eq_true (all_eq_true.mp h c hc)

theorem toNat_of_isNameChar (h : isNameChar c) : 48 ≤ c.toNat ∧ c.toNat ≤ 122 := by
  rw [isNameChar, Char.isAlphanum] at h
  delta Char.isAlpha Char.isUpper Char.isLower at h
  simp only [Char.isDigit, or_eq_true, and_eq_true, decide_eq_true_eq, beq_iff_eq, ge_iff_le,
    UInt32.le_iff_toNat_le] at h
  rcases h with ((h | h) | h) | rfl
  · exact ⟨le_trans (by decide) h.1, le_trans h.2 (by decide)⟩
  · exact ⟨le_trans (by decide) h.1, h.2⟩
  · exact ⟨h.1, le_trans h.2 (by decide)⟩
  · decide

theorem not_isBlank_of_isNameChar (h : isNameChar c) : isBlank c = false := by
  have := toNat_of_isNameChar h
  simp only [isBlank, or_eq_false_iff, and_eq_false_iff, decide_eq_false_iff_not, beq_eq_false_iff_ne, ne_eq]
  omega

theorem isNameChar_of_isDigit (h : c.isDigit) : isNameChar c := by
  simp [isNameChar, Char.isAlphanum, h]

theorem isNameChar_of_isNameStart (h : isNameStart c) : isNameChar c := by
  rw [isNameStart, or_eq_true] at h
  rcases h with h | h <;> simp [isNameChar, Char.isAlphanum, h]

theorem not_isDigit_of_isNameStart (h : isNameStart c) : c.isDigit = false := by
  by_contra hd
  simp only [not_eq_false, Char.isDigit, and_eq_true, decide_eq_true_eq, ge_iff_le, UInt32.le_iff_toNat_le] at hd
  have hl : c.toNat ≤ 57 := hd.2
  rw [isNameStart] at h
  delta Char.isAlpha Char.isUpper Char.isLower at h
  simp only [or_eq_true, and_eq_true, decide_eq_true_eq, beq_iff_eq, ge_iff_le, UInt32.le_iff_toNat_le] at h
  rcases h with (h | h) | rfl
  · have hg : 65 ≤ c.toNat := h.1
    omega
  · have hg : 97 ≤ c.toNat := h.1
    omega
  · exact absurd hl (by decide)

/-- What follows a name or a number does not go on with it. -/
def Ends (rest : List Char) : Prop := ∀ c ∈ rest.head?, isNameChar c = false

theorem ends_cons (h : isNameChar c = false) (tl : List Char) : Ends (c :: tl) := by
  intro d hd
  obtain rfl : c = d := by simpa using hd
  exact h

theorem takeWhile_append_of_ends {p : Char → Bool} (hcs : ∀ c ∈ cs, p c)
    (hr : ∀ c ∈ rest.head?, p c = false) : (cs ++ rest).takeWhile p = cs ∧ (cs ++ rest).dropWhile p = rest := by
  rw [takeWhile_append_of_pos hcs, dropWhile_append_of_pos hcs]
  cases rest with
  | nil => simp
  | cons c rest =>
    have hc : p c = false := hr c rfl
    simp [hc]

def IsGap (gap : List Char) : Prop := ∀ c ∈ gap, isBlank c = true

theorem isGap_nil : IsGap [] := fun _ hc => nomatch hc

theorem isGap_space : IsGap [' '] := fun c hc => by
  obtain rfl : c = ' ' := by simpa using hc
  decide

/-! ### Marks and names -/

theorem dropBlank_cons (h : isBlank c = false) (rest : List Char) : (c :: rest).dropWhile isBlank = c :: rest := by
  simp [h]

theorem expect?_cons (hc : isBlank c = false) (mark rest : List Char) :
    expect? (c :: mark) (c :: (mark ++ rest)) = some rest := by
  rw [expect?, dropBlank_cons hc]
  exact dropPrefix?_append (c :: mark) rest

theorem expect?_char (hc : isBlank c = false) (rest : List Char) :
    expect? [c] (c :: rest) = some rest := expect?_cons hc [] rest

theorem expect?_blank (hc : isBlank c) (mark rest : List Char) : expect? mark (c :: rest) = expect? mark rest := by
  rw [expect?, dropWhile_cons_of_pos hc, ← expect?]

theorem expect?_cons_of_ne {d : Char} (hd : isBlank d = false) (hn : c ≠ d) (mark tl : List Char) :
    expect? (c :: mark) (d :: tl) = none := by
  rw [expect?, dropBlank_cons hd, Text.dropPrefix?, if_neg (by simpa using hn)]

/-- Names of variables. -/
structure IsName (name : String) : Prop where
  start : ∀ c ∈ name.toList.head?, isNameStart c = true
  nonempty : name.toList ≠ []
  chars : ∀ c ∈ name.toList, isNameChar c = true
  notReserved : name ∉ ["true", "false", "null"]

theorem IsName.of_toList {name : String} {c : Char} {cs : List Char} (hn : name.toList = c :: cs)
    (hs : isNameStart c) (hc : (cs.all isNameChar))
    (hr : name ∉ ["true", "false", "null"]) : IsName name where
  start := by
    intro d hd
    rw [hn] at hd
    obtain rfl := some.inj hd
    exact hs
  nonempty := by simp [hn]
  chars := by
    rw [hn]
    intro d hd
    rcases mem_cons.mp hd with rfl | hd
    · exact isNameChar_of_isNameStart hs
    · exact all_eq_true.mp hc d hd
  notReserved := hr

theorem readName?_cons (hs : isNameStart c) (hc : ∀ d ∈ cs, isNameChar d) (hr : Ends tl) :
    readName? (c :: (cs ++ tl)) = some (String.ofList (c :: cs), tl) := by
  obtain ⟨ht, hd⟩ := takeWhile_append_of_ends hc hr
  rw [readName?, dropBlank_cons (not_isBlank_of_isNameChar (isNameChar_of_isNameStart hs))]
  simp [hs, ht, hd]

/-- A name is read up to a character that cannot belong to it. -/
theorem readName?_append (h : IsName name) (hr : Ends tl) : readName? (name.toList ++ tl) = some (name, tl) := by
  obtain ⟨c, cs, hc⟩ := exists_cons_of_ne_nil h.nonempty
  have hs : isNameStart c := h.start c (by simp [hc])
  have hch : ∀ d ∈ cs, isNameChar d := fun d hd => h.chars d (by simp [hc, hd])
  rw [hc, cons_append, readName?_cons hs hch hr, ← hc, String.ofList_toList]

/-! ### Constants -/

/-- Whole numbers in base ten. -/
inductive IsNumeral : List Char → Int → Prop
  | natural {digits : List Char} : digits ≠ [] → (∀ c ∈ digits, c.isDigit = true) →
      IsNumeral digits (Nat.ofDigitChars 10 digits 0)
  | negative {digits : List Char} : digits ≠ [] → (∀ c ∈ digits, c.isDigit = true) →
      IsNumeral ('-' :: digits) (-(Nat.ofDigitChars 10 digits 0 : Int))

/-- How constants are written in scripts. -/
inductive IsWritten : Literal → List Char → Prop
  | number {n : Int} {cs : List Char} : IsNumeral cs n → IsWritten (.number n) cs
  | text {cs : List Char} : '"' ∉ cs → IsWritten (.text (String.ofList cs)) ('"' :: (cs ++ ['"']))
  | yes : IsWritten (.flag true) "true".toList
  | no : IsWritten (.flag false) "false".toList

theorem readNatural?_append {ds : List Char} (hne : ds ≠ []) (hd : ∀ c ∈ ds, c.isDigit)
    (hr : Ends tl) : readNatural? (ds ++ tl) = some (Nat.ofDigitChars 10 ds 0, tl) := by
  have hs : ∀ c ∈ tl.head?, c.isDigit = false := by
    intro c hc
    by_contra hdi
    have hn := isNameChar_of_isDigit ((not_eq_false _).mp hdi)
    rw [hr c hc] at hn
    cases hn
  obtain ⟨ht, hdr⟩ := takeWhile_append_of_ends hd hs
  simp [readNatural?, ht, hdr, hne]

theorem readNatural?_of_isNameStart (h : isNameStart c) (tl : List Char) : readNatural? (c :: tl) = none := by
  simp [readNatural?, not_isDigit_of_isNameStart h]

/-- A literal does not begin like a gap, a sign or the end of a list. -/
theorem IsWritten.head (h : IsWritten l cs) : ∃ c tl, cs = c :: tl ∧ isBlank c = false ∧ c ≠ '=' ∧ c ≠ ']' := by
  cases h with
  | number hn =>
    cases hn with
    | natural hne hd =>
      obtain ⟨c, tl, rfl⟩ := exists_cons_of_ne_nil hne
      have hc := isNameChar_of_isDigit (hd c (mem_cons_self ..))
      refine ⟨c, tl, rfl, not_isBlank_of_isNameChar hc, ?_, ?_⟩ <;>
        · rintro rfl
          exact absurd hc (by decide)
    | negative hne hd => exact ⟨'-', _, rfl, by decide, by decide, by decide⟩
  | text hq => exact ⟨'"', _, rfl, by decide, by decide, by decide⟩
  | yes => exact ⟨'t', _, rfl, by decide, by decide, by decide⟩
  | no => exact ⟨'f', _, rfl, by decide, by decide, by decide⟩

theorem readPlain?_digits {ds : List Char} (hn : ds ≠ []) (hd : ∀ c ∈ ds, c.isDigit)
    (hr : Ends tl) : readPlain? (ds ++ tl) = some (.number (Nat.ofDigitChars 10 ds 0), tl) := by
  rw [readPlain?, readNatural?_append hn hd hr]

theorem readPlain?_true (hr : Ends tl) : readPlain? ("true".toList ++ tl) = some (.flag true, tl) := by
  have hn : readName? ("true".toList ++ tl) = some ("true", tl) :=
    readName?_cons (by decide) (forall_mem_of_all (by decide)) hr
  have hna : readNatural? ("true".toList ++ tl) = none := readNatural?_of_isNameStart (by decide) _
  simp only [readPlain?, hn, hna]

theorem readPlain?_false (hr : Ends tl) : readPlain? ("false".toList ++ tl) = some (.flag false, tl) := by
  have hn : readName? ("false".toList ++ tl) = some ("false", tl) :=
    readName?_cons (by decide) (forall_mem_of_all (by decide)) hr
  have hna : readNatural? ("false".toList ++ tl) = none := readNatural?_of_isNameStart (by decide) _
  simp only [readPlain?, hn, hna]

theorem readLiteral?_plain (hc : isNameChar c) (hg : IsGap gap) (tl : List Char) :
    readLiteral? (gap ++ c :: tl) = readPlain? (c :: tl) := by
  rw [readLiteral?, dropWhile_append_of_pos hg, dropBlank_cons (not_isBlank_of_isNameChar hc)]
  split
  · next heq =>
    obtain ⟨rfl, -⟩ := cons.inj heq
    exact absurd hc (by decide)
  · next heq =>
    obtain ⟨rfl, -⟩ := cons.inj heq
    exact absurd hc (by decide)
  · rfl

/-- A literal is read as it was written, behind any gap. -/
theorem readLiteral?_append (hg : IsGap gap) (h : IsWritten l cs) (hr : Ends rest) :
    readLiteral? (gap ++ (cs ++ rest)) = some (l, rest) := by
  cases h with
  | number hn =>
    cases hn with
    | natural hne hd =>
      obtain ⟨c, tl, rfl⟩ := exists_cons_of_ne_nil hne
      have hc : isNameChar c := isNameChar_of_isDigit (hd c (by simp))
      rw [cons_append, readLiteral?_plain hc hg, ← cons_append, readPlain?_digits hne hd hr]
    | negative hne hd =>
      rw [readLiteral?, dropWhile_append_of_pos hg, cons_append, dropBlank_cons (by decide)]
      simp [readNatural?_append hne hd hr]
  | text hq =>
    rw [readLiteral?, dropWhile_append_of_pos hg, cons_append,
      dropBlank_cons (by decide), append_assoc, singleton_append]
    simp [splitFirst?_append hq]
  | yes => exact (readLiteral?_plain (by decide) hg _).trans (readPlain?_true hr)
  | no => exact (readLiteral?_plain (by decide) hg _).trans (readPlain?_false hr)

/-! ### Comparisons and lists -/

def Relation.sign : Relation → List Char
  | equal => ['=', '=']
  | unequal => ['!', '=']
  | less => ['<']
  | greater => ['>']
  | atMost => ['<', '=']
  | atLeast => ['>', '=']

theorem readRelation?_sign (r : Relation) (hr : rest.head? ≠ some '=') :
    readRelation? (' ' :: (r.sign ++ rest)) = some (r, rest) := by
  have hs : (' ' :: (r.sign ++ rest)).dropWhile isBlank = r.sign ++ rest := by
    cases r <;> rfl
  rw [readRelation?, hs]
  -- the signs of one character must not be taken for longer ones
  cases r with
  | less | greater =>
    cases rest with
    | nil => rfl
    | cons c rest =>
      have hc : c ≠ '=' := fun h => hr (by simp [h])
      simp [Relation.sign, hc]
  | equal | unequal | atMost | atLeast => rfl

theorem IsWritten.head?_append_ne (h : IsWritten l cs) (hg : IsGap gap) (rest : List Char) :
    (gap ++ (cs ++ rest)).head? ≠ some '=' := by
  obtain ⟨c, tl, rfl, -, hc, -⟩ := h.head
  cases gap with
  | nil => simpa using hc
  | cons d gap =>
    intro heq
    obtain rfl : d = '=' := by simpa using heq
    exact absurd (hg '=' (by simp)) (by decide)

theorem readComparison?_append (hn : IsName name) (r : Relation) (hg : IsGap gap) (h : IsWritten l cs)
    (hr : Ends tl) : readComparison? (name.toList ++ ' ' :: (r.sign ++ (gap ++ (cs ++ tl))))
      = some (.compare name r l, tl) := by
  have ht : (name == "true") = false := by
    rw [beq_eq_false_iff_ne]
    rintro rfl
    exact hn.notReserved (by simp)
  have hf : (name == "false") = false := by
    rw [beq_eq_false_iff_ne]
    rintro rfl
    exact hn.notReserved (by simp)
  simp only [readComparison?, readName?_append hn (ends_cons (c := ' ') (by decide) _),
    readRelation?_sign r (h.head?_append_ne hg tl), readLiteral?_append hg h hr, ht, hf,
    bind_eq_bind, bind_some, false_eq_true, if_false, Option.pure_def]

/-- The items of a list are read up to its bracket. The induction is on the items. -/
theorem readItems?_append (h : Forall₂ IsWritten its texts) (hn : texts ≠ []) (tl : List Char) :
    ∀ (gap : List Char) (k : Nat), IsGap gap → texts.length ≤ k →
      readItems? k (gap ++ (", ".toList.intercalate texts ++ ']' :: tl)) = some (its, tl) := by
  induction h with
  | nil => exact absurd rfl hn
  | @cons item t its texts hit hite ih =>
    intro gap k hg hf
    obtain ⟨k, rfl⟩ : ∃ n, k = n + 1 := ⟨k - 1, by simp at hf; omega⟩
    cases hite with
    | nil =>
      rw [intercalate_singleton, readItems?, readLiteral?_append hg hit (ends_cons (c := ']') (by decide) _)]
      simp [expect?_char (c := ']') (by decide),
        expect?_cons_of_ne (c := ',') (d := ']') (by decide) (by decide)]
    | @cons item' text' items' texts' hnext hmo =>
      have hm := ih (by simp) [' '] k isGap_space (by simp at hf ⊢; omega)
      have hc : ", ".toList.intercalate (t :: text' :: texts') ++ ']' :: tl
          = t ++ ',' :: ([' '] ++ (", ".toList.intercalate (text' :: texts') ++ ']' :: tl)) := by
        simp
      rw [hc, readItems?, readLiteral?_append hg hit (ends_cons (c := ',') (by decide) _)]
      simp only [bind_eq_bind, bind_some, expect?_char (c := ',') (by decide), hm, Option.pure_def]

theorem readList?_append (h : Forall₂ IsWritten its texts) (hn : texts ≠ []) (rest : List Char) {k : Nat}
    (hf : texts.length ≤ k) :
    readList? k (", ".toList.intercalate texts ++ ']' :: rest) = some (its, rest) := by
  have ho : expect? [']'] (", ".toList.intercalate texts ++ ']' :: rest) = none := by
    cases h with
    | nil => exact absurd rfl hn
    | @cons item t its texts hit hite =>
      obtain ⟨c, tl, rfl, hb, -, hc⟩ := hit.head
      cases texts with
      | nil => exact expect?_cons_of_ne hb hc.symm [] _
      | cons text' texts =>
        exact expect?_cons_of_ne hb hc.symm [] _
  rw [readList?, ho]
  exact readItems?_append h hn rest [] k isGap_nil hf

/-! ### Terms and formulas -/

/-- The text is read as a term, whatever follows it. -/
def ReadsTerm (text : List Char) (f : Formula) : Prop :=
  ∀ (fuel : Nat) (rest : List Char), text.length ≤ fuel → Ends rest → readTerm? fuel (text ++ rest) = some (f, rest)

/-- The text is read as a formula if a bracket closes behind it. -/
def ReadsFormula (text : List Char) (f : Formula) : Prop := ∀ (fuel : Nat) (rest : List Char), text.length < fuel →
    readFormula? fuel (text ++ ')' :: rest) = some (f, ')' :: rest)

theorem readTerm?_of_isNameStart (hc : isNameStart c) (k : Nat) (tl : List Char) :
    readTerm? (k + 1) (c :: tl) = readComparison? (c :: tl) := by
  rw [readTerm?, dropBlank_cons (not_isBlank_of_isNameChar (isNameChar_of_isNameStart hc))]
  split
  case h_4 => rfl
  all_goals
    next heq =>
      obtain ⟨rfl, -⟩ := cons.inj heq
      exact absurd hc (by decide)

theorem ReadsTerm.comparison (hn : IsName name) (r : Relation) (hg : IsGap gap) (h : IsWritten l cs) :
    ReadsTerm (name.toList ++ ' ' :: (r.sign ++ (gap ++ cs))) (.compare name r l) := by
  intro k rest hf hr
  obtain ⟨c, tl, hc⟩ := exists_cons_of_ne_nil hn.nonempty
  have hs : isNameStart c := hn.start c (by simp [hc])
  obtain ⟨k, rfl⟩ : ∃ n, k = n + 1 := ⟨k - 1, by simp [hc] at hf; omega⟩
  have hre := readComparison?_append hn r hg h hr
  rw [hc] at hre
  rw [hc, cons_append, cons_append, readTerm?_of_isNameStart hs]
  simpa using hre

theorem length_le_intercalate (h : Forall₂ IsWritten its texts) :
    texts.length ≤ (", ".toList.intercalate texts).length := by
  induction h with
  | nil => simp
  | @cons item t its texts hit hite ih =>
    obtain ⟨c, tl, rfl, -⟩ := hit.head
    cases texts with
    | nil => simp
    | cons text' texts =>
      rw [intercalate_cons_cons, length_append, length_append]
      simp only [length_cons] at ih ⊢
      omega

theorem ReadsTerm.member (h : Forall₂ IsWritten its texts) (hne : texts ≠ []) (hn : IsName name) : ReadsTerm
      ('[' :: (", ".toList.intercalate texts ++ ("].contains(".toList ++ (name.toList ++ [')']))))
      (.member its name) := by
  intro k tl hf hr
  have hle := length_le_intercalate h
  simp only [length_cons, length_append] at hf
  obtain ⟨k, rfl⟩ : ∃ n, k = n + 1 := ⟨k - 1, by omega⟩
  have hs : '[' :: (", ".toList.intercalate texts ++ ("].contains(".toList ++ (name.toList ++ [')']))) ++ tl
      = '[' :: (", ".toList.intercalate texts ++
        ']' :: ('.' :: ("contains(".toList ++ (name.toList ++ ')' :: tl)))) := by simp
  have hl := readList?_append h hne
    ('.' :: ("contains(".toList ++ (name.toList ++ ')' :: tl))) (show texts.length ≤ k by omega)
  have hc : expect? ".contains(".toList
      ('.' :: ("contains(".toList ++ (name.toList ++ ')' :: tl))) = some (name.toList ++ ')' :: tl) :=
    expect?_cons (by decide) "contains(".toList _
  rw [hs, readTerm?, dropBlank_cons (by decide)]
  simp only [hl, hc, readName?_append hn (ends_cons (c := ')') (by decide) tl),
    bind_eq_bind, bind_some, expect?_char (c := ')') (by decide), Option.pure_def]

theorem ReadsTerm.negation (h : ReadsTerm t f) : ReadsTerm ('!' :: t) (.negation f) := by
  intro k tl hf hr
  obtain ⟨k, rfl⟩ : ∃ n, k = n + 1 := ⟨k - 1, by simp at hf; omega⟩
  have hre := h k tl (by simpa using hf) hr
  rw [cons_append, readTerm?, dropBlank_cons (by decide)]
  simp [hre]

theorem ReadsFormula.bracket (h : ReadsFormula t f) : ReadsTerm ('(' :: (t ++ [')'])) f := by
  intro k tl hf hr
  obtain ⟨k, rfl⟩ : ∃ n, k = n + 1 := ⟨k - 1, by simp at hf; omega⟩
  have hre := h k tl (by simp at hf; omega)
  rw [cons_append, append_assoc, singleton_append, readTerm?, dropBlank_cons (by decide)]
  simp [hre, expect?_char (c := ')') (by decide)]

theorem ReadsTerm.formula (h : ReadsTerm t f) : ReadsFormula t f := by
  intro k tl hf
  obtain ⟨k, rfl⟩ : ∃ n, k = n + 1 := ⟨k - 1, by omega⟩
  have hr := h k (')' :: tl) (by omega) (ends_cons (by decide) _)
  simp [readFormula?, hr, expect?_cons_of_ne (c := '&') (d := ')') (by decide) (by decide)]

theorem readTerm?_space (k : Nat) (rest : List Char) : readTerm? k (' ' :: rest) = readTerm? k rest := by
  cases k with
  | zero => simp [readTerm?]
  | succ k =>
    have hs : (' ' :: rest).dropWhile isBlank = rest.dropWhile isBlank := rfl
    simp [readTerm?, hs]

theorem readFormula?_space (k : Nat) (rest : List Char) : readFormula? k (' ' :: rest) = readFormula? k rest := by
  cases k with
  | zero => simp [readFormula?]
  | succ k => simp [readFormula?, readTerm?_space]

theorem ReadsTerm.both {text' : List Char} {g : Formula} (h : ReadsTerm t f) (h' : ReadsFormula text' g) :
    ReadsFormula (t ++ (" && ".toList ++ text')) (.both f g) := by
  intro k tl hf
  rw [length_append] at hf
  obtain ⟨k, rfl⟩ : ∃ n, k = n + 1 := ⟨k - 1, by omega⟩
  have hs : t ++ (" && ".toList ++ text') ++ ')' :: tl
      = t ++ ' ' :: '&' :: ('&' :: ' ' :: (text' ++ ')' :: tl)) := by simp
  have hl := h k (' ' :: '&' :: ('&' :: ' ' :: (text' ++ ')' :: tl))) (by omega) (ends_cons (by decide) _)
  have hr := h' k tl (by simp at hf; omega)
  have hm : expect? ['&', '&'] ('&' :: ('&' :: ' ' :: (text' ++ ')' :: tl)))
      = some (' ' :: (text' ++ ')' :: tl)) := expect?_cons (by decide) ['&'] _
  rw [hs, readFormula?]
  simp [hl, expect?_blank (c := ' ') (by decide), hm, readFormula?_space, hr]

theorem readsTerm_true : ReadsTerm "true".toList (.constant true) := by
  intro k tl hf hr
  obtain ⟨k, rfl⟩ : ∃ n, k = n + 1 := ⟨k - 1, by simp at hf; omega⟩
  have hn : readName? ("true".toList ++ tl) = some ("true", tl) :=
    readName?_cons (by decide) (forall_mem_of_all (by decide)) hr
  have ht : readTerm? (k + 1) ("true".toList ++ tl) = readComparison? ("true".toList ++ tl) :=
    readTerm?_of_isNameStart (by decide) k _
  rw [ht, readComparison?, hn]
  rfl

/-- A conjunction of formulas; true if there are none. -/
def Formula.all : List Formula → Formula
  | [] => constant true
  | [f] => f
  | f :: rest => both f (all rest)

theorem readsFormula_all {formulas : List Formula} (h : Forall₂ ReadsTerm texts formulas) (hn : texts ≠ []) :
    ReadsFormula (" && ".toList.intercalate texts) (Formula.all formulas) := by
  induction h with
  | nil => exact absurd rfl hn
  | @cons t f texts formulas ht hte ih =>
    cases hte with
    | nil => simpa [Formula.all] using ht.formula
    | cons hne hm =>
      exact ht.both (ih (by simp))

/-! ### Chains of branches -/

theorem splitAtPiece?_append {res : List Char} (h : ¬ ['\n', '\x7d'] <:+: res) (tl : List Char) :
    splitAtPiece? ['\n', '\x7d'] (res ++ '\n' :: '\x7d' :: tl) = some (res, tl) := by
  induction res with
  | nil => rfl
  | cons c res ih =>
    have hin := ih fun hp => h (infix_cons hp)
    have hh : Text.dropPrefix? ['\n', '\x7d'] (c :: (res ++ '\n' :: '\x7d' :: tl)) = none := by
      -- a closing line cannot begin inside the result and end behind it
      cases res with
      | nil => simp [Text.dropPrefix?]
      | cons d res =>
        have hn : ¬ ('\n' = c ∧ '\x7d' = d) := by
          rintro ⟨rfl, rfl⟩
          exact h ⟨[], res, rfl⟩
        by_cases hc : '\n' = c
        · have hd : '\x7d' ≠ d := fun hd => hn ⟨hc, hd⟩
          simp [Text.dropPrefix?, hd]
        · simp [Text.dropPrefix?, hc]
    rw [cons_append, splitAtPiece?, hh]
    simp [hin]

theorem readChain?_blank (hc : isBlank c) (k : Nat) (rest : List Char) :
    readChain? k (c :: rest) = readChain? k rest := by
  cases k with
  | zero => simp [readChain?]
  | succ k => simp [readChain?, expect?_blank hc]

theorem readChain?_branch {cnd res : List Char} (hf : ReadsFormula cnd f)
    (hr : ¬ ['\n', '\x7d'] <:+: res) (tl : List Char) {k : Nat} (hfu : cnd.length < k) :
    readChain? (k + 1) ("if (".toList ++ (cnd ++ (") \x7b\n    return ".toList ++
        (res ++ ("\n\x7d\n\n".toList ++ tl))))) = (readChain? k tl).map fun p =>
          { p with branches := (f, String.ofList res) :: p.branches } := by
  obtain ⟨tail, ht⟩ : ∃ tail, tail = res ++ ("\n\x7d\n\n".toList ++ tl) := ⟨_, rfl⟩
  have hs : splitAtPiece? ['\n', '\x7d'] tail = some (res, '\n' :: '\n' :: tl) := ht ▸ splitAtPiece?_append hr _
  rw [← ht]
  -- the marks of a branch, from the last one back to the first
  have hre : expect? "return ".toList ("\n    return ".toList ++ tail) = some tail :=
    expect?_cons (c := 'r') (by decide) "eturn ".toList tail
  have ho : expect? ['\x7b'] (" \x7b\n    return ".toList ++ tail)
      = some ("\n    return ".toList ++ tail) := expect?_char (c := '\x7b') (by decide) _
  have hrea := hf k (" \x7b\n    return ".toList ++ tail) hfu
  have hp : expect? ['('] (" (".toList ++ (cnd ++ (") \x7b\n    return ".toList ++ tail)))
      = some (cnd ++ ')' :: (" \x7b\n    return ".toList ++ tail)) :=
    expect?_char (c := '(') (by decide) _
  have hif : expect? "if".toList ("if (".toList ++ (cnd ++ (") \x7b\n    return ".toList ++ tail)))
      = some (" (".toList ++ (cnd ++ (") \x7b\n    return ".toList ++ tail))) :=
    expect?_cons (c := 'i') (by decide) ['f'] _
  simp only [readChain?, hif, hp, hrea, expect?_char (c := ')') (by decide), ho, hre,
    hs, readChain?_blank (c := '\n') (by decide), bind_eq_bind, bind_some,
    Option.pure_def]
  cases readChain? k tl <;> rfl

theorem readChain?_last (k : Nat) : readChain? (k + 1) "return null\n".toList = some ⟨[], "null"⟩ := by
  rfl

end ProcessForge.Decision
