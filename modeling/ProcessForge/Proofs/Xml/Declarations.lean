import ProcessForge.Proofs.Xml.Tidying

/-! Declarations of document types. A declaration that is read is written in a normal form: an entity with a value in
    quotes, a comment, or another declaration as it is. What has that form is read again, and it keeps the form when its
    blank lines are taken out. -/

namespace ProcessForge.Xml

open List Option Text

open Text (tidy isInk)

variable {cs rest tl p : List Char} {c : Char}

/-! ### References by number -/

theorem not_mem_of_foldlM {α β : Type} {f : β → α → Option β} {a : α} (ha : ∀ b, f b a = none) :
    ∀ {l : List α} {b r : β}, l.foldlM f b = some r → a ∉ l
  | [], _, _, _ => not_mem_nil
  | c :: l, b, r, h => by
    obtain ⟨b', hf, hr⟩ := bind_eq_some_iff.mp h
    rw [mem_cons, not_or]
    refine ⟨?_, not_mem_of_foldlM ha hr⟩
    rintro rfl
    rw [ha] at hf
    cases hf

theorem not_mem_of_readPoint? {base : Nat} {point : Nat} (h : readPoint? base cs = some point) : '\n' ∉ cs := by
  unfold readPoint? at h
  split at h
  · cases h
  · refine not_mem_of_foldlM (fun total => ?_) h
    simp [Char.isDigit]

theorem readReference_numeric {post : List Char} (h : readReference ('#' :: tl) = some (.character c, post)) :
    ∃ ref, tl = ref ++ ';' :: post ∧ '\n' ∉ ref ∧
      ∀ b, readReference ('#' :: (ref ++ ';' :: b)) = some (.character c, b) := by
  unfold readReference at h
  split at h
  · next ds heq =>
    obtain rfl := (cons.inj heq).2
    obtain ⟨⟨ds, after'⟩, hs, h⟩ := bind_eq_some_iff.mp h
    obtain ⟨d, hd, h⟩ := bind_eq_some_iff.mp h
    cases h
    obtain ⟨point, hp, ha⟩ := bind_eq_some_iff.mp hd
    refine ⟨'x' :: ds, by rw [eq_append_of_splitFirst? hs]; rfl, ?_, fun b => ?_⟩
    · simp [not_mem_of_readPoint? hp]
    · simp [readReference, splitFirst?_append (not_mem_of_splitFirst? hs), hp, ha]
  · next ds hx heq =>
    obtain rfl := (cons.inj heq).2
    obtain ⟨⟨ds, after'⟩, hs, h⟩ := bind_eq_some_iff.mp h
    obtain ⟨d, hd, h⟩ := bind_eq_some_iff.mp h
    cases h
    obtain ⟨point, hp, ha⟩ := bind_eq_some_iff.mp hd
    have hr := eq_append_of_splitFirst? hs
    refine ⟨ds, hr, not_mem_of_readPoint? hp, fun b => ?_⟩
    cases ds with
    | nil => cases hp
    | cons e ds =>
      have he : e ≠ 'x' := fun heq => hx _ (by rw [hr, heq]; rfl)
      rw [cons_append, readReference, ← cons_append, splitFirst?_append (not_mem_of_splitFirst? hs)]
      · simp [hp, ha]
      · exact fun ms heq => he (cons.inj heq).1
  · next hn =>
    exact absurd rfl (hn tl)

/-- The text of an entity whose references by number are complete. -/
inductive IsNumeric : List Char → Prop
  | nil : IsNumeric []
  | reference {ref after : List Char} {c : Char} : '\n' ∉ ref →
      (∀ other, readReference ('#' :: (ref ++ ';' :: other)) = some (.character c, other)) →
      IsNumeric after → IsNumeric ('&' :: '#' :: (ref ++ ';' :: after))
  | char {c : Char} {rest : List Char} : (c = '&' → rest.head? ≠ some '#') → IsNumeric rest → IsNumeric (c :: rest)

theorem isNumeric_of_resolveNumeric {k : Nat} {t : List Char} (h : resolveNumeric k cs = some t) : IsNumeric cs := by
  induction k, cs using resolveNumeric.induct generalizing t with
  | case1 => cases h
  | case2 => exact .nil
  | case3 k tl ih =>
    obtain ⟨⟨reference, post⟩, hr, h⟩ := bind_eq_some_iff.mp h
    cases reference with
    | character c =>
      obtain ⟨text', ht, -⟩ := map_eq_some_iff.mp h
      obtain ⟨ref, rfl, hn, hre⟩ := readReference_numeric hr
      exact .reference hn hre (ih post ht)
    | entity name => cases h
  | case4 k c tl ha ih =>
    rw [resolveNumeric] at h
    · obtain ⟨text', ht, -⟩ := map_eq_some_iff.mp h
      refine .char (fun hc hh => ?_) (ih ht)
      obtain ⟨ms, rfl⟩ := head?_eq_some_iff.mp hh
      exact ha ms hc rfl
    · exact ha

theorem IsNumeric.resolveNumeric (h : IsNumeric cs) : ∀ k, cs.length < k → ∃ text, resolveNumeric k cs = some text := by
  induction h with
  | nil =>
    intro k hf
    obtain ⟨k, rfl⟩ := exists_succ_of_lt hf
    exact ⟨[], rfl⟩
  | @reference ref post c _ hr _ ih =>
    intro k hf
    obtain ⟨k, rfl⟩ := exists_succ_of_lt hf
    simp only [length_cons, length_append] at hf
    obtain ⟨text, ht⟩ := ih k (by omega)
    exact ⟨c :: text, by simp [Xml.resolveNumeric, hr, ht]⟩
  | @char c tl hc _ ih =>
    intro k hf
    obtain ⟨k, rfl⟩ := exists_succ_of_lt hf
    obtain ⟨text, ht⟩ := ih k (by simpa using hf)
    refine ⟨c :: text, ?_⟩
    rw [Xml.resolveNumeric, ht]
    · rfl
    · rintro ms ha rfl
      exact hc ha rfl

theorem IsNumeric.of_cons (hc : c ≠ '&') (h : IsNumeric (c :: rest)) : IsNumeric rest := by
  cases h with
  | reference => exact absurd rfl hc
  | char _ hr => exact hr

theorem IsNumeric.afterBreak (h : IsNumeric cs) : IsNumeric (Text.afterBreak cs) := by
  have hd : IsNumeric (cs.dropWhile fun c => !isInk c && c != '\n') := by
    induction cs with
    | nil => exact h
    | cons c cs ih =>
      rw [dropWhile_cons]
      split
      · next hb =>
        have hc : c ≠ '&' := by
          rintro rfl
          exact absurd hb (by decide)
        exact ih (h.of_cons hc)
      · exact h
  unfold Text.afterBreak
  split
  · next tl heq =>
    rw [heq] at hd
    exact hd.of_cons (by decide)
  · exact h

theorem IsNumeric.tidy (h : IsNumeric cs) : IsNumeric (tidy cs) := by
  induction h with
  | nil => exact .nil
  | @reference ref post c hn hr _ ih =>
    have hf : '\n' ∉ '&' :: '#' :: (ref ++ [';']) := by simp [hn]
    have ht : Text.tidy ('&' :: '#' :: (ref ++ ';' :: post)) = '&' :: '#' :: (ref ++ ';' :: Text.tidy post) := by
      simpa using Text.tidy_append hf post
    rw [ht]
    exact .reference hn hr ih
  | @char c tl hc _ ih =>
    by_cases hn : c = '\n'
    · rw [hn]
      exact .char (fun heq => absurd heq (by decide)) ih.afterBreak
    · rw [tidy_cons hn]
      exact .char (fun ha => by rw [head?_tidy]; exact hc ha) ih

/-! ### Quotes -/

def quoteOf (cs : List Char) : Char := if cs.contains '"' then '\'' else '"'

def IsQuotable (cs : List Char) : Prop := '"' ∉ cs ∨ '\'' ∉ cs

def quotedChars (cs : List Char) : List Char := quoteOf cs :: (cs ++ [quoteOf cs])

theorem quoteOf_not_mem (h : IsQuotable cs) : quoteOf cs ∉ cs := by
  unfold quoteOf
  split
  · next hm => exact h.resolve_left (not_not_intro (contains_iff_mem.mp hm))
  · next hm => simpa using hm

theorem quoteOf_cases (cs : List Char) : quoteOf cs = '"' ∨ quoteOf cs = '\'' := by
  unfold quoteOf
  split
  · exact .inr rfl
  · exact .inl rfl

theorem toList_quoted (s : String) : (quoted s).toList = quotedChars s.toList := by
  unfold quoted quotedChars quoteOf
  split <;> simp

theorem requoted_eq (h : IsQuotable cs) : requoted cs = quotedChars cs := by
  unfold requoted quotedChars quoteOf
  split
  · next hm =>
    have hn : '\'' ∉ cs := h.resolve_left (not_not_intro (contains_iff_mem.mp hm))
    simp [hn]
  · simp

theorem readQuoted_append (h : IsQuotable cs) (tl : List Char) : readQuoted (quotedChars cs ++ tl) = some (cs, tl) := by
  have hq : (quoteOf cs == '"' || quoteOf cs == '\'') := by
    simpa using quoteOf_cases cs
  rw [quotedChars, cons_append, readQuoted, if_pos hq, append_assoc, singleton_append,
    splitFirst?_append (quoteOf_not_mem h)]

theorem skipSpace_quotedChars (cs rest : List Char) : skipSpace (quotedChars cs ++ rest) = quotedChars cs ++ rest := by
  rw [quotedChars, cons_append, skipSpace_cons]
  rcases quoteOf_cases cs with heq | heq <;> rw [heq] <;> decide

theorem readQuoted_space (h : IsQuotable cs) (tl : List Char) :
    readQuoted (skipSpace (' ' :: (quotedChars cs ++ tl))) = some (cs, tl) := by
  rw [skipSpace_space, skipSpace_quotedChars, readQuoted_append h]

theorem isQuotable_of_readQuoted {text : List Char} (h : readQuoted cs = some (text, tl)) : IsQuotable text := by
  unfold readQuoted at h
  split at h
  · next q cs =>
    split at h
    · next hq =>
      have hn := not_mem_of_splitFirst? h
      simp only [Bool.or_eq_true, beq_iff_eq] at hq
      rcases hq with rfl | rfl
      · exact .inl hn
      · exact .inr hn
    · cases h
  · cases h

theorem mem_tidy_iff (hc : isInk c) : c ∈ tidy cs ↔ c ∈ cs := by
  refine ⟨mem_of_mem_tidy, fun hm => ?_⟩
  obtain ⟨f, back, rfl⟩ := append_of_mem hm
  rw [tidy_append_cons hc]
  simp

theorem IsQuotable.tidy (h : IsQuotable cs) : IsQuotable (tidy cs) :=
  h.imp (fun hn hm => hn (mem_of_mem_tidy hm)) fun hn hm => hn (mem_of_mem_tidy hm)

theorem tidy_quotedChars (cs rest : List Char) :
    tidy (quotedChars cs ++ rest) = quotedChars (tidy cs) ++ tidy rest := by
  have hs : quoteOf (tidy cs) = quoteOf cs := by
    simp [quoteOf, mem_tidy_iff (by decide : isInk '"')]
  have hin : isInk (quoteOf cs) := by
    rcases quoteOf_cases cs with heq | heq <;> rw [heq] <;> decide
  have hn := ne_newline_of_isInk hin
  rw [quotedChars, quotedChars, hs, cons_append, append_assoc, singleton_append, tidy_cons hn, tidy_append_cons hin]
  simp

/-! ### Declarations -/

/-- A declaration of a document type as it is written: an entity, a comment or another one. -/
inductive Form where
  | entity (name : String) (value : List Char)
  | remark (s : String)
  | other (body : String)

def Form.text : Form → String
  | .entity name value => "<!ENTITY " ++ name ++ " " ++ String.ofList (requoted value) ++ ">\n"
  | .remark s => "<!--" ++ s ++ "-->"
  | .other body => "<!" ++ body ++ ">\n"

/-- An entity that can be written. -/
structure IsWrittenEntity (name : String) (value : List Char) : Prop where
  isNcName : isNcName name = true
  allowed : isAllowedText (String.ofList value) = true
  unified : '\r' ∉ value
  quotable : IsQuotable value
  numeric : IsNumeric value

/-- Another declaration that can be written. -/
structure IsWrittenOther (body : String) : Prop where
  allowed : isAllowedText body = true
  unified : '\r' ∉ body.toList
  alpha : ∃ c cs, body.toList = c :: cs ∧ c.isAlpha = true
  bracket : '>' ∉ body.toList
  keyword : ¬['E', 'N', 'T', 'I', 'T', 'Y'] <+: body.toList

def Form.IsWritten : Form → Prop
  | .entity name value => IsWrittenEntity name value
  | .remark s => IsWrittenComment s
  | .other body => IsWrittenOther body

theorem prefix_of_prefix_unifyNewlines (hp : '\n' ∉ p) (h : p <+: unifyNewlines cs) : p <+: cs := by
  induction p generalizing cs with
  | nil => exact nil_prefix
  | cons a p ih =>
    rw [mem_cons, not_or] at hp
    have ha : a ≠ '\n' := Ne.symm hp.1
    have hh : (unifyNewlines cs).head? = some a := by
      obtain ⟨post, haf⟩ := h
      rw [← haf]
      rfl
    obtain ⟨ms, rfl⟩ := head?_eq_some_iff.mp (head?_unifyNewlines ha hh)
    have hr : a ≠ '\r' := ((mem_unifyNewlines (mem_of_mem_head? hh)).resolve_left ha).2
    rw [unifyNewlines_cons hr, cons_prefix_cons] at h
    exact cons_prefix_cons.mpr ⟨rfl, ih hp.2 h.2⟩

theorem not_mem_unifyNewlines (hc : c ≠ '\n') (h : c ∉ cs) : c ∉ unifyNewlines cs :=
  fun hm => h ((mem_unifyNewlines hm).resolve_left hc).1

theorem exists_form_of_readEntity {d : Declared} (h : readEntity cs = some (d, tl)) :
    ∃ form : Form, form.IsWritten ∧ d.written = some form.text := by
  obtain ⟨⟨name, rest₁⟩, hn, h⟩ := bind_eq_some_iff.mp h
  obtain ⟨⟨v, rest₂⟩, hv, h⟩ := bind_eq_some_iff.mp h
  obtain ⟨clean, hc, h⟩ := bind_eq_some_iff.mp h
  obtain ⟨rest₃, -, h⟩ := bind_eq_some_iff.mp h
  obtain ⟨t, ht, h⟩ := bind_eq_some_iff.mp h
  cases h
  obtain ⟨rfl, ha, hr⟩ := cleaned?_eq_some hc
  have hq : IsQuotable (unifyNewlines v) :=
    (isQuotable_of_readQuoted hv).imp (not_mem_unifyNewlines (by decide)) (not_mem_unifyNewlines (by decide))
  exact ⟨.entity name _, ⟨isNcName_of_readNcName hn, ha, hr, hq, isNumeric_of_resolveNumeric ht⟩, rfl⟩

theorem isWrittenOther_of_splitFirst? {ms b t : List Char} (ha : c.isAlpha)
    (he : Text.dropPrefix? "<!ENTITY".toList ('<' :: '!' :: c :: ms) = none)
    (hs : splitFirst? '>' (c :: ms) = some (b, tl)) (hc : cleaned? b = some t) :
    IsWrittenOther (String.ofList t) := by
  obtain ⟨rfl, hal, hr⟩ := cleaned?_eq_some hc
  have hb := eq_append_of_splitFirst? hs
  refine ⟨hal, by simpa using hr, ?_, ?_, fun hk => ?_⟩
  · cases b with
    | nil =>
      rw [(cons.inj hb).1] at ha
      exact absurd ha (by decide)
    | cons d b =>
      obtain rfl := (cons.inj hb).1
      have hn : c ≠ '\r' := by
        rintro rfl
        exact absurd ha (by decide)
      exact ⟨c, unifyNewlines b, by rw [String.toList_ofList, unifyNewlines_cons hn], ha⟩
  · rw [String.toList_ofList]
    exact not_mem_unifyNewlines (by decide) (not_mem_of_splitFirst? hs)
  · -- the keyword of an entity would have been there before the line ends were made alike
    rw [String.toList_ofList] at hk
    have hp : '\n' ∉ ['E', 'N', 'T', 'I', 'T', 'Y'] := by decide
    obtain ⟨post, rfl⟩ := prefix_of_prefix_unifyNewlines hp hk
    have hsh : '<' :: '!' :: c :: ms = "<!ENTITY".toList ++ (post ++ '>' :: tl) := by
      rw [hb]
      rfl
    rw [hsh, dropPrefix?_append] at he
    cases he

theorem exists_form_of_readDeclared {d : Declared} (h : readDeclared cs = some (d, tl)) :
    ∃ form : Form, form.IsWritten ∧ d.written = some form.text := by
  unfold readDeclared at h
  split at h
  · exact exists_form_of_readEntity h
  · next he =>
    split at h
    · obtain ⟨⟨tk, rest₁⟩, ht, h⟩ := bind_eq_some_iff.mp h
      have hc := isClean_of_readComment ht
      cases tk with
      | comment s =>
        cases h
        exact ⟨.remark s, hc, rfl⟩
      | startTag | endTag | data | verbatim | instruction => cases h
    · split at h
      · next ha =>
        obtain ⟨⟨b, rest₁⟩, hs, h⟩ := bind_eq_some_iff.mp h
        obtain ⟨t, hcl, h⟩ := bind_eq_some_iff.mp h
        cases h
        exact ⟨.other _, isWrittenOther_of_splitFirst? ha he hs hcl, rfl⟩
      · cases h
    · cases h

def Form.chars (form : Form) : List Char := form.text.toList

theorem prefix_of_prefix_append {a : Char} (ha : a ∉ p) (h : p <+: cs ++ a :: tl) : p <+: cs := by
  induction p generalizing cs with
  | nil => exact nil_prefix
  | cons b p ih =>
    rw [mem_cons, not_or] at ha
    cases cs with
    | nil => exact absurd (cons_prefix_cons.mp h).1.symm ha.1
    | cons c cs =>
      rw [cons_append, cons_prefix_cons] at h
      exact cons_prefix_cons.mpr ⟨h.1, ih ha.2 h.2⟩

theorem skipSpace_of_isNcName {s : String} (h : isNcName s) (rest : List Char) :
    skipSpace (s.toList ++ rest) = s.toList ++ rest := by
  obtain ⟨c, cs, hs, hc, -⟩ := exists_of_isNcName h
  rw [hs, cons_append, skipSpace_cons (not_isSpace_of_isNameStart hc)]

theorem closeDeclaration?_bracket (rest : List Char) : closeDeclaration? ('>' :: rest) = some rest := by
  simp [closeDeclaration?, skipSpace_cons (by decide : isSpace '>' = false)]

theorem readEntity_append {name : String} {value : List Char} (h : IsWrittenEntity name value) (tl : List Char) :
    ∃ d, readEntity (' ' :: (name.toList ++ ' ' :: (quotedChars value ++ '>' :: tl))) = some (d, tl) := by
  have hn : readNcName (skipSpace (' ' :: (name.toList ++ ' ' :: (quotedChars value ++ '>' :: tl))))
      = some (name, ' ' :: (quotedChars value ++ '>' :: tl)) := by
    rw [skipSpace_space, skipSpace_of_isNcName h.isNcName]
    exact readNcName_append h.isNcName fun c hc => by cases hc; decide
  have hv := readQuoted_space h.quotable ('>' :: tl)
  have hcl : cleaned? value = some value := by
    simpa using cleaned?_of_isAllowed h.allowed (by simpa using h.unified)
  obtain ⟨t, ht⟩ := h.numeric.resolveNumeric _ (Nat.lt_succ_self _)
  exact ⟨_, by simp only [readEntity, hn, hv, hcl, closeDeclaration?_bracket, ht, bind_eq_bind, bind_some]; rfl⟩

theorem IsWrittenOther.dropPrefix?_eq_none {b : String} (h : IsWrittenOther b) (tl : List Char) :
    Text.dropPrefix? "<!ENTITY".toList ('<' :: '!' :: (b.toList ++ '>' :: tl)) = none := by
  cases ha : Text.dropPrefix? "<!ENTITY".toList ('<' :: '!' :: (b.toList ++ '>' :: tl)) with
  | none => rfl
  | some after =>
    have heq : b.toList ++ '>' :: tl = ['E', 'N', 'T', 'I', 'T', 'Y'] ++ after :=
      (cons.inj (cons.inj (eq_append_of_dropPrefix? ha)).2).2
    have hb : '>' ∉ ['E', 'N', 'T', 'I', 'T', 'Y'] := by decide
    exact absurd (prefix_of_prefix_append hb ⟨after, heq.symm⟩) h.keyword

theorem IsWrittenOther.readDeclared_append {b : String} (h : IsWrittenOther b) (tl : List Char) :
    readDeclared ('<' :: '!' :: (b.toList ++ '>' :: tl)) = some (⟨some ("<!" ++ b ++ ">\n"), none⟩, tl) := by
  obtain ⟨c, cs, hc, ha⟩ := h.alpha
  have hd : c ≠ '-' := by
    rintro rfl
    exact absurd ha (by decide)
  have hb := splitFirst?_append h.bracket tl
  have hcl := cleaned?_of_isAllowed h.allowed h.unified
  unfold readDeclared
  rw [h.dropPrefix?_eq_none, hc]
  simp only [cons_append]
  split
  · next heq => exact absurd (cons.inj (cons.inj (cons.inj heq).2).2).1 hd
  · next d more _ heq =>
    obtain ⟨rfl, rfl⟩ := cons.inj (cons.inj (cons.inj heq).2).2
    rw [if_pos ha, ← cons_append, ← hc, hb]
    simp [hcl]
  · next heq => exact absurd rfl (heq _ _)

variable {form : Form}

theorem readDeclared_append (h : form.IsWritten) (rest : List Char) :
    ∃ d post, readDeclared (form.chars ++ rest) = some (d, post) ∧ skipSpace post = skipSpace rest := by
  have hn : skipSpace ('\n' :: rest) = skipSpace rest := by simp [skipSpace, isSpace]
  cases form with
  | entity name value =>
    obtain ⟨d, hr⟩ := readEntity_append h ('\n' :: rest)
    refine ⟨d, '\n' :: rest, ?_, hn⟩
    have hs : (Form.entity name value).chars ++ rest
        = "<!ENTITY".toList ++ ' ' :: (name.toList ++ ' ' :: (quotedChars value ++ '>' :: '\n' :: rest)) := by
      simp [Form.chars, Form.text, requoted_eq h.quotable]
    unfold readDeclared
    rw [hs, dropPrefix?_append]
    exact hr
  | remark s =>
    have hs : (Form.remark s).chars ++ rest = '<' :: '!' :: '-' :: '-' :: (s.toList ++ '-' :: '-' :: '>' :: rest) := by
      simp [Form.chars, Form.text]
    rw [hs]
    simp [readDeclared, Text.dropPrefix?, readComment_append h]
  | other body =>
    have hs : (Form.other body).chars ++ rest = '<' :: '!' :: (body.toList ++ '>' :: '\n' :: rest) := by
      simp [Form.chars, Form.text]
    exact ⟨_, '\n' :: rest, hs ▸ h.readDeclared_append _, hn⟩

theorem head?_form_chars (form : Form) : form.chars.head? = some '<' := by
  cases form <;> simp [Form.chars, Form.text]

theorem readDeclaredAll_congr {ds : List Char} (h : skipSpace cs = skipSpace ds) (k : Nat) :
    readDeclaredAll k cs = readDeclaredAll k ds := by
  cases k with
  | zero => rfl
  | succ k => rw [readDeclaredAll, readDeclaredAll, h]

theorem readDeclaredAll_append (rest : List Char) : ∀ {fs : List Form}, (∀ form ∈ fs, form.IsWritten) →
    ∀ k, fs.length < k → ∃ d,
    readDeclaredAll k (fs.flatMap Form.chars ++ ']' :: rest) = some (d, rest)
  | [], _, k, hf => by
    obtain ⟨k, rfl⟩ := exists_succ_of_lt hf
    exact ⟨[], by simp [readDeclaredAll, skipSpace_cons (by decide : isSpace ']' = false)]⟩
  | form :: fs, h, k, hf => by
    obtain ⟨k, rfl⟩ := exists_succ_of_lt hf
    rw [forall_mem_cons] at h
    obtain ⟨ms, hm⟩ := readDeclaredAll_append rest h.2 k (by simpa using hf)
    obtain ⟨f, post, hfi, ha⟩ := readDeclared_append h.1 (fs.flatMap Form.chars ++ ']' :: rest)
    obtain ⟨tl, ht⟩ := head?_eq_some_iff.mp (head?_form_chars form)
    rw [← readDeclaredAll_congr ha] at hm
    rw [ht, cons_append] at hfi
    rw [flatMap_cons, append_assoc, ht, cons_append, readDeclaredAll, skipSpace_cons (by decide : isSpace '<' = false)]
    simp [hfi, hm]

theorem exists_forms_of_readDeclaredAll {k : Nat} {d : List Declared}
    (h : readDeclaredAll k cs = some (d, tl)) : ∃ fs : List Form, (∀ form ∈ fs, form.IsWritten) ∧
      d.filterMap Declared.written = fs.map Form.text := by
  induction k generalizing cs d with
  | zero => cases h
  | succ k ih =>
    unfold readDeclaredAll at h
    split at h
    · cases h
      exact ⟨[], by simp, rfl⟩
    · obtain ⟨⟨f, rest₁⟩, hf, h⟩ := bind_eq_some_iff.mp h
      obtain ⟨⟨ms, rest₂⟩, hm, h⟩ := bind_eq_some_iff.mp h
      cases h
      obtain ⟨form, hfor, hw⟩ := exists_form_of_readDeclared hf
      obtain ⟨fs, hfo, heq⟩ := ih hm
      exact ⟨form :: fs, forall_mem_cons.mpr ⟨hfor, hfo⟩, by simp [hw, heq]⟩

/-! ### Blank lines of declarations -/

/-- A declaration without blank lines inside. -/
def Form.tidied : Form → Form
  | .entity name value => .entity name (tidy value)
  | .remark s => .remark (tidyText s)
  | .other body => .other (tidyText body)

theorem prefix_of_prefix_tidy (hp : ∀ c ∈ p, isInk c) (h : p <+: tidy cs) : p <+: cs := by
  induction p generalizing cs with
  | nil => exact nil_prefix
  | cons a p ih =>
    rw [forall_mem_cons] at hp
    have hh : cs.head? = some a := by
      obtain ⟨post, ha⟩ := h
      rw [← head?_tidy, ← ha]
      rfl
    obtain ⟨ms, rfl⟩ := head?_eq_some_iff.mp hh
    rw [tidy_cons (ne_newline_of_isInk hp.1), cons_prefix_cons] at h
    exact cons_prefix_cons.mpr ⟨rfl, ih hp.2 h.2⟩

theorem Form.IsWritten.tidied (h : form.IsWritten) : form.tidied.IsWritten := by
  cases form with
  | entity name value =>
    refine ⟨h.isNcName, ?_, fun hm => h.unified (mem_of_mem_tidy hm), h.quotable.tidy, h.numeric.tidy⟩
    simpa [tidyText] using isAllowedText_tidyText h.allowed
  | remark s => exact IsWrittenComment.tidyText h
  | other body =>
    obtain ⟨c, cs, hc, ha⟩ := h.alpha
    refine ⟨isAllowedText_tidyText h.allowed, ?_, ⟨c, tidy cs, ?_, ha⟩, ?_, ?_⟩ <;> rw [toList_tidyText]
    · exact fun hm => h.unified (mem_of_mem_tidy hm)
    · have hn : c ≠ '\n' := by
        rintro rfl
        exact absurd ha (by decide)
      rw [hc, tidy_cons hn]
    · exact fun hm => h.bracket (mem_of_mem_tidy hm)
    · have hin : ['E', 'N', 'T', 'I', 'T', 'Y'].all isInk := by decide
      exact fun hk => h.keyword (prefix_of_prefix_tidy (all_eq_true.mp hin) hk)

theorem tidy_newline_cons (hc : isInk c) (cs : List Char) : tidy ('\n' :: c :: cs) = '\n' :: tidy (c :: cs) := by
  rw [tidy_newline, tidy_cons (ne_newline_of_isInk hc)]
  exact congrArg ('\n' :: ·) (afterBreak_append hc [] (tidy cs))

theorem tidy_form_chars (h : form.IsWritten) (hc : isInk c) (tl : List Char) :
    tidy (form.chars ++ c :: tl) = form.tidied.chars ++ tidy (c :: tl) := by
  cases form with
  | entity name value =>
    have hf : '\n' ∉ "<!ENTITY ".toList ++ (name.toList ++ [' ']) := by
      simp [not_mem_of_isNcName h.isNcName]
    have ha := Text.tidy_append hf (quotedChars value ++ '>' :: '\n' :: c :: tl)
    rw [tidy_quotedChars, tidy_cons (by decide), tidy_newline_cons hc] at ha
    simpa [Form.chars, Form.text, Form.tidied, requoted_eq h.quotable, requoted_eq h.quotable.tidy] using ha
  | remark s =>
    have hb : tidy (s.toList ++ '-' :: '-' :: '>' :: c :: tl)
        = (tidyText s).toList ++ '-' :: '-' :: '>' :: tidy (c :: tl) := by
      rw [tidy_append_cons (by decide), tidy_cons (by decide), tidy_cons (by decide), toList_tidyText]
    simpa [Form.chars, Form.text, Form.tidied, tidy_cons] using hb
  | other b =>
    have hb : tidy (b.toList ++ '>' :: '\n' :: c :: tl) = (tidyText b).toList ++ '>' :: '\n' :: tidy (c :: tl) := by
      rw [tidy_append_cons (by decide), tidy_newline_cons hc, toList_tidyText]
    simpa [Form.chars, Form.text, Form.tidied, tidy_cons] using hb

end ProcessForge.Xml
