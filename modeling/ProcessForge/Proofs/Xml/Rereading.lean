import ProcessForge.Proofs.Xml.Substance

/-! What is written is read again, token by token. Each statement is about a written piece with any text behind it:
    reading gives the token of the piece and leaves that text. -/

namespace ProcessForge.Xml

open List Option Text

variable {s t : String} {name : RawName} {cs : List Char} {c : Char}

/-! ### Names -/

def Name.raw (name : Name) : RawName := ⟨name.space.bind Namespace.short, name.stem⟩

def RawName.chars (name : RawName) : List Char :=
  match name.short with
  | some short => short.toList ++ ':' :: name.stem.toList
  | none => name.stem.toList

/-- Both parts of a name are names without colon. -/
structure RawName.IsWritten (name : RawName) : Prop where
  short : ∀ s, name.short = some s → isNcName s = true
  stem : isNcName name.stem = true

def EndsName (cs : List Char) : Prop := ∀ c, cs.head? = some c → isNamePart c = false ∧ c ≠ ':'

theorem toList_written (name : Name) : name.written.toList = name.raw.chars := by
  obtain ⟨sp, st⟩ := name
  match sp with
  | none => rfl
  | some ⟨none, uri⟩ => rfl
  | some ⟨some sh, uri⟩ => simp [Name.written, Name.raw, RawName.chars]

theorem exists_of_isNcName (h : isNcName s) : ∃ c cs, s.toList = c :: cs ∧ isNameStart c ∧ cs.all isNamePart := by
  unfold isNcName at h
  split at h
  · cases h
  · next c cs hs => exact ⟨c, cs, hs, by simpa using h⟩

theorem readNcName_append (h : isNcName s) {rest : List Char}
    (hr : ∀ c, rest.head? = some c → isNamePart c = false) : readNcName (s.toList ++ rest) = some (s, rest) := by
  obtain ⟨c, cs, hs, hc, hcs⟩ := exists_of_isNcName h
  have hp := all_eq_true.mp hcs
  have ht : rest.takeWhile isNamePart = [] := by
    cases rest with
    | nil => rfl
    | cons d ds => simp [hr d rfl]
  have hd : rest.dropWhile isNamePart = rest := by
    cases rest with
    | nil => rfl
    | cons d ds => simp [hr d rfl]
  rw [hs, cons_append, readNcName, if_pos hc, takeWhile_append_of_pos hp,
    dropWhile_append_of_pos hp, ht, hd, append_nil, ← hs, String.ofList_toList]

theorem readName_append (h : name.IsWritten) {tl : List Char} (hr : EndsName tl) :
    readName (name.chars ++ tl) = some (name, tl) := by
  obtain ⟨sh, st⟩ := name
  have hs : readNcName (st.toList ++ tl) = some (st, tl) := readNcName_append h.stem fun c hc => (hr c hc).1
  have he : ∀ tail, tl ≠ ':' :: tail := by
    rintro tail rfl
    exact (hr ':' rfl).2 rfl
  cases sh with
  | none =>
    simp only [RawName.chars, readName, hs, bind_eq_bind, bind_some]
    rfl
  | some sh =>
    have hco : ∀ c, (':' :: (st.toList ++ tl)).head? = some c → isNamePart c = false := by
      intro c hc
      cases hc
      decide
    have hsh := readNcName_append (h.short sh rfl) hco
    simp only [RawName.chars, readName, append_assoc, cons_append, hsh, bind_eq_bind, bind_some, hs]
    rfl

/-! ### Values -/

theorem exists_succ_of_lt {m n : Nat} (h : m < n) : ∃ k, n = k + 1 :=
  Nat.exists_eq_succ_of_ne_zero (Nat.ne_zero_of_lt h)

theorem toList_escapeValue (s : String) :
    (escapeValue s).toList = s.toList.flatMap fun c => (escapeValueChar c).toList := by
  simp [escapeValue, flatMap_map]

/-- Characters that a text has by name or number only. -/
def isEscaped (c : Char) : Bool := c == '&' || c == '<' || c == '>' || c == '\r'

/-- A way to write characters, some of them by a reference. -/
structure Escape where
  chars : Char → List Char
  escaped : Char → Bool
  reference : ∀ c, escaped c = true → ∃ name, chars c = '&' :: name ∧ name.all (fun d => isInk d && d != '"') = true ∧
    ∀ rest, readReference (name ++ rest) = some (.character c, rest)
  plain : ∀ c, escaped c = false → chars c = [c]
  marks : ∀ c, isEscaped c = true → escaped c = true

/-- A way to write values of attributes and texts. -/
structure Writer where
  value : Escape
  text : Escape
  quotes : ∀ c, (c == '"' || c == '\t' || c == '\n') = true → value.escaped c = true
  blanks : ∀ c, isInk c = false → text.escaped c = false

/-- What a document is printed with. -/
def printed : Writer where
  value :=
    { chars := fun c => (escapeValueChar c).toList
      escaped := fun c => c == '"' || c == '\t' || c == '\n' || isEscaped c
      reference := fun c h => by
        simp only [isEscaped, Bool.or_eq_true, beq_iff_eq] at h
        rcases h with ((rfl | rfl) | rfl) | ((rfl | rfl) | rfl) | rfl <;> exact ⟨_, rfl, by decide, fun _ => rfl⟩
      plain := fun c h => by
        simp only [isEscaped, Bool.or_eq_false_iff, beq_eq_false_iff_ne] at h
        unfold escapeValueChar escapeTextChar
        split <;> simp_all
      marks := fun c h => by simp [h] }
  text :=
    { chars := fun c => (escapeTextChar c).toList
      escaped := isEscaped
      reference := fun c h => by
        simp only [isEscaped, Bool.or_eq_true, beq_iff_eq] at h
        rcases h with ((rfl | rfl) | rfl) | rfl <;> exact ⟨_, rfl, by decide, fun _ => rfl⟩
      plain := fun c h => by
        simp only [isEscaped, Bool.or_eq_false_iff, beq_eq_false_iff_ne] at h
        simp [escapeTextChar_of_ne h.1.1.1 h.1.1.2 h.1.2 h.2]
      marks := fun _ h => h }
  quotes c h := by simp [h]
  blanks c h := by
    refine Bool.eq_false_iff.mpr fun he => ?_
    simp only [isEscaped, Bool.or_eq_true, beq_iff_eq] at he
    rcases he with ((rfl | rfl) | rfl) | rfl <;> exact absurd h (by decide)

variable (w : Writer)

theorem eq_blank_of_plain (h : w.value.escaped c = false) (hs : isSpace c) : c = ' ' := by
  simp only [isSpace, Bool.or_eq_true, beq_iff_eq] at hs
  rcases hs with ((rfl | rfl) | rfl) | rfl
  · rfl
  · exact absurd (w.quotes '\t' rfl) (by simp [h])
  · exact absurd (w.quotes '\n' rfl) (by simp [h])
  · exact absurd (w.value.marks '\r' rfl) (by simp [h])

theorem resolveValue_written (expand : String → Option (List Char)) (h : ∀ c ∈ cs, isAllowed c) :
    ∀ k, (cs.flatMap w.value.chars).length < k → resolveValue expand k (cs.flatMap w.value.chars) = some cs := by
  induction cs with
  | nil =>
    intro k hf
    obtain ⟨k, rfl⟩ := exists_succ_of_lt hf
    rfl
  | cons c cs ih =>
    intro k hf
    obtain ⟨k, rfl⟩ := exists_succ_of_lt hf
    have hr := ih (fun d hd => h d (mem_cons_of_mem _ hd)) k
    rw [flatMap_cons] at hf ⊢
    cases he : w.value.escaped c with
    | true =>
      obtain ⟨name, hn, -, href⟩ := w.value.reference c he
      rw [hn, cons_append] at hf ⊢
      simp only [length_cons, length_append] at hf
      rw [resolveValue, href]
      simp [hr (by omega)]
    | false =>
      rw [w.value.plain c he] at hf ⊢
      simp only [singleton_append, length_cons] at hf ⊢
      have hm : isEscaped c = false := Bool.eq_false_iff.mpr fun hm => by simp [w.value.marks c hm] at he
      simp only [isEscaped, Bool.or_eq_false_iff, beq_eq_false_iff_ne] at hm
      have hb : (if isSpace c then ' ' else c) = c := by
        split
        · next hs => exact (eq_blank_of_plain w he hs).symm
        · rfl
      rw [resolveValue, hr (by omega), hb]
      · simp [hm.1.1.2, h c mem_cons_self]
      · exact hm.1.1.1
      · exact fun tl heq => absurd heq hm.2

theorem not_mem_value {d : Char} (hd : d = '"' ∨ d = '\n') (cs : List Char) : d ∉ cs.flatMap w.value.chars := by
  intro hm
  obtain ⟨c, -, hc⟩ := mem_flatMap.mp hm
  cases he : w.value.escaped c with
  | true =>
    obtain ⟨name, hn, hi, -⟩ := w.value.reference c he
    rw [hn] at hc
    rcases mem_cons.mp hc with rfl | hc
    · simp at hd
    · have hq := all_eq_true.mp hi d hc
      rcases hd with rfl | rfl <;> exact absurd hq (by decide)
  | false =>
    rw [w.value.plain c he, mem_singleton] at hc
    rw [w.quotes c (by rcases hd with rfl | rfl <;> simp [← hc])] at he
    cases he

theorem readValue_written (depth : Nat) (entities : Entities) (h : isAllowedText s) :
    readValue (depth + 1) entities (s.toList.flatMap w.value.chars) = some s.toList :=
  resolveValue_written w _ (all_eq_true.mp h) _ (Nat.lt_succ_self _)

/-! ### Tags -/

def attributeChars (a : RawName × String) : List Char :=
  ' ' :: (a.1.chars ++ '=' :: '"' :: ((escapeValue a.2).toList ++ ['"']))

/-- An attribute as a writer writes it. -/
def Writer.attribute (a : RawName × String) : List Char :=
  ' ' :: (a.1.chars ++ '=' :: '"' :: (a.2.toList.flatMap w.value.chars ++ ['"']))

/-- A name that can be written, with a value that can. -/
def IsWrittenAttribute (a : RawName × String) : Prop := a.1.IsWritten ∧ isAllowedText a.2 = true

def tagEnd (closed : Bool) : List Char := if closed then ['/', '>'] else ['>']

theorem exists_of_isWritten (h : name.IsWritten) : ∃ c cs, name.chars = c :: cs ∧ isNameStart c := by
  obtain ⟨sh, st⟩ := name
  cases sh with
  | none =>
    obtain ⟨c, cs, hs, hc, -⟩ := exists_of_isNcName h.stem
    exact ⟨c, cs, hs, hc⟩
  | some sh =>
    obtain ⟨c, cs, hs, hc, -⟩ := exists_of_isNcName (h.short sh rfl)
    exact ⟨c, cs ++ ':' :: st.toList, by simp [RawName.chars, hs], hc⟩

theorem ne_of_isNameStart {d : Char} (hc : isNameStart c) (hd : isNameStart d = false) : c ≠ d := by
  rintro rfl
  simp [hc] at hd

theorem not_isSpace_of_isNameStart (h : isNameStart c) : isSpace c = false := by
  have hn : c ≠ ' ' ∧ c ≠ '\t' ∧ c ≠ '\n' ∧ c ≠ '\r' :=
    ⟨ne_of_isNameStart h (by decide), ne_of_isNameStart h (by decide), ne_of_isNameStart h (by decide),
      ne_of_isNameStart h (by decide)⟩
  simp [isSpace, hn]

theorem endsName_cons (hp : isNamePart c = false) (hc : c ≠ ':') (tl : List Char) : EndsName (c :: tl) := by
  intro d hd
  cases hd
  exact ⟨hp, hc⟩

theorem skipSpace_cons (h : isSpace c = false) (rest : List Char) : skipSpace (c :: rest) = c :: rest := by
  simp [skipSpace, h]

theorem skipSpace_space (rest : List Char) : skipSpace (' ' :: rest) = skipSpace rest := by
  simp [skipSpace, isSpace]

theorem readAttributes_cons (entities : Entities) {a : RawName × String} (h : IsWrittenAttribute a) {k : Nat}
    {post tl : List Char} {ms : List (RawName × String)} {cl : Bool}
    (hm : readAttributes entities k post = some (ms, cl, tl)) :
    readAttributes entities (k + 1) (w.attribute a ++ post) = some (a :: ms, cl, tl) := by
  obtain ⟨name, v⟩ := a
  obtain ⟨hn, hv⟩ := h
  obtain ⟨c, cs, hc, hs⟩ := exists_of_isWritten hn
  have he : EndsName ('=' :: '"' :: (v.toList.flatMap w.value.chars ++ '"' :: post)) :=
    endsName_cons (by decide) (by decide) _
  have hr := readName_append hn he
  have hq : splitFirst? '"' (v.toList.flatMap w.value.chars ++ '"' :: post)
      = some (v.toList.flatMap w.value.chars, post) := splitFirst?_append (not_mem_value w (.inl rfl) _) post
  have hsh : w.attribute (name, v) ++ post
      = ' ' :: (name.chars ++ '=' :: '"' :: (v.toList.flatMap w.value.chars ++ '"' :: post)) := by
    simp [Writer.attribute]
  rw [hc, cons_append] at hr
  rw [hsh, hc, cons_append, readAttributes, skipSpace_space, skipSpace_cons (not_isSpace_of_isNameStart hs)]
  split
  · next heq => exact absurd (cons.inj heq).1 (ne_of_isNameStart hs (by decide))
  · next heq => exact absurd (cons.inj heq).1 (ne_of_isNameStart hs (by decide))
  · rw [hr]
    simp [skipSpace_cons (by decide : isSpace '=' = false), skipSpace_cons (by decide : isSpace '"' = false),
      readQuoted, hq, readValue_written _ _ _ hv, hm]

theorem readAttributes_append (entities : Entities) (cl : Bool) (tl : List Char) :
    ∀ {ats : List (RawName × String)}, (∀ a ∈ ats, IsWrittenAttribute a) → ∀ k,
    ats.length < k →
    readAttributes entities k (ats.flatMap w.attribute ++ (tagEnd cl ++ tl)) = some (ats, cl, tl)
  | [], _, k, hf => by
    obtain ⟨k, rfl⟩ := exists_succ_of_lt hf
    cases cl <;> simp [readAttributes, tagEnd, skipSpace, isSpace]
  | a :: ats, h, k, hf => by
    obtain ⟨k, rfl⟩ := exists_succ_of_lt hf
    have hm := readAttributes_append entities cl tl (fun b ho => h b (mem_cons_of_mem _ ho)) k (by simpa using hf)
    rw [flatMap_cons, append_assoc]
    exact readAttributes_cons w entities (h a mem_cons_self) hm

/-- The name of the attribute that declares a namespace. -/
def Namespace.raw (space : Namespace) : RawName :=
  match space.short with
  | some short => ⟨some "xmlns", short⟩
  | none => ⟨none, "xmlns"⟩

/-- The attributes of a tag as they are written, declarations first. -/
def Tag.rawAttributes (tag : Tag) : List (RawName × String) :=
  (tag.declared.map fun space => (space.raw, space.uri)) ++ tag.attributes.map fun a => (a.name.raw, a.value)

/-- A tag whose names and values can be written. -/
structure Tag.IsWritten (tag : Tag) : Prop where
  name : tag.name.raw.IsWritten
  attributes : ∀ a ∈ tag.rawAttributes, IsWrittenAttribute a

theorem Tag.chars_eq (tag : Tag) : tag.chars = tag.name.raw.chars ++ tag.rawAttributes.flatMap attributeChars := by
  have hd : ∀ sp : Namespace, sp.render.toList = attributeChars (sp.raw, sp.uri) := by
    intro sp
    obtain ⟨sh, uri⟩ := sp
    cases sh <;> simp [Namespace.render, attributeChars, Namespace.raw, RawName.chars]
  have ha : ∀ a : Attribute, a.render.toList = attributeChars (a.name.raw, a.value) := by
    simp [Attribute.render, attributeChars, toList_written]
  simp [Tag.chars, Tag.render, Tag.rawAttributes, toList_written, flatMap_map, hd, ha]

def Tag.charsBy (tag : Tag) : List Char := tag.name.raw.chars ++ tag.rawAttributes.flatMap w.attribute

theorem Tag.charsBy_printed (tag : Tag) : tag.charsBy printed = tag.chars := by
  have ha : printed.attribute = attributeChars := funext fun a => by
    rw [attributeChars, toList_escapeValue]
    rfl
  rw [Tag.chars_eq, Tag.charsBy, ha]

theorem endsName_attributes (ats : List (RawName × String)) (cl : Bool) (tl : List Char) :
    EndsName (ats.flatMap w.attribute ++ (tagEnd cl ++ tl)) := by
  cases ats with
  | nil => cases cl <;> exact endsName_cons (by decide) (by decide) _
  | cons a ats => exact endsName_cons (by decide) (by decide) _

theorem length_le_flatMap {α β : Type} {f : α → List β} (h : ∀ a, f a ≠ []) (l : List α) :
    l.length ≤ (l.flatMap f).length := by
  induction l with
  | nil => simp
  | cons a l ih =>
    have := length_pos_iff.mpr (h a)
    simp only [flatMap_cons, length_append, length_cons]
    omega

theorem readStartTag_append (entities : Entities) {tag : Tag} (h : tag.IsWritten) (cl : Bool)
    (tl : List Char) : readStartTag entities (tag.charsBy w ++ (tagEnd cl ++ tl))
      = some (.startTag tag.name.raw tag.rawAttributes cl, tl) := by
  have hf : tag.rawAttributes.length < (tag.rawAttributes.flatMap w.attribute ++ (tagEnd cl ++ tl)).length + 1 := by
    have := length_le_flatMap (f := w.attribute) (by simp [Writer.attribute]) tag.rawAttributes
    simp only [length_append]
    omega
  rw [Tag.charsBy, append_assoc, readStartTag, readName_append h.name (endsName_attributes w _ cl tl)]
  have hr := readAttributes_append w entities cl tl h.attributes _ hf
  simp only [bind_eq_bind, bind_some, hr]
  rfl

theorem readEndTag_append (h : name.IsWritten) (tl : List Char) :
    readEndTag (name.chars ++ '>' :: tl) = some (.endTag name, tl) := by
  rw [readEndTag, readName_append h (endsName_cons (by decide) (by decide) tl)]
  simp [skipSpace_cons (by decide : isSpace '>' = false)]

/-! ### Comments and instructions -/

/-- A comment that can be written. -/
structure IsWrittenComment (s : String) : Prop where
  allowed : isAllowedText s = true
  unified : '\r' ∉ s.toList
  dashes : ¬['-', '-'] <:+: s.toList ++ ['-']

/-- An instruction that can be written. -/
structure IsWrittenInstruction (target : String) (body : Option String) : Prop where
  isNcName : isNcName target = true
  notReserved : isReservedTarget target = false
  allowed : ∀ s ∈ body, isAllowedText s = true
  unified : ∀ s ∈ body, '\r' ∉ s.toList
  start : ∀ s ∈ body, ∀ c ∈ s.toList.head?, isSpace c = false
  mark : ∀ s ∈ body, ¬['?', '>'] <:+: s.toList ++ ['?']

theorem unifyNewlines_cons (h : c ≠ '\r') (cs : List Char) : unifyNewlines (c :: cs) = c :: unifyNewlines cs := by
  rw [unifyNewlines]
  · exact fun tl heq => absurd heq h
  · exact h

theorem unifyNewlines_of_not_mem (h : '\r' ∉ cs) : unifyNewlines cs = cs := by
  induction cs with
  | nil => rfl
  | cons c cs ih =>
    rw [mem_cons, not_or] at h
    rw [unifyNewlines_cons (Ne.symm h.1), ih h.2]

theorem cleaned?_of_isAllowed (ha : isAllowedText s) (hu : '\r' ∉ s.toList) : cleaned? s.toList = some s.toList := by
  have hal : s.toList.all isAllowed := ha
  rw [cleaned?, if_pos hal, unifyNewlines_of_not_mem hu]

theorem splitAtPiece?_append {a b : Char} (h : ¬[a, b] <:+: cs ++ [a]) (tl : List Char) :
    splitAtPiece? [a, b] (cs ++ a :: b :: tl) = some (cs, tl) := by
  induction cs with
  | nil => simp [splitAtPiece?, Text.dropPrefix?]
  | cons c cs ih =>
    have hr := ih fun hin => h (infix_cons hin)
    have hd : Text.dropPrefix? [a, b] (c :: (cs ++ a :: b :: tl)) = none := by
      cases ha : Text.dropPrefix? [a, b] (c :: (cs ++ a :: b :: tl)) with
      | none => rfl
      | some post =>
        have heq := eq_append_of_dropPrefix? ha
        refine absurd ?_ h
        cases cs with
        | nil =>
          simp only [nil_append, cons_append, cons.injEq] at heq
          exact ⟨[], [], by simp [heq.1, heq.2.1]⟩
        | cons d ds =>
          simp only [cons_append, nil_append, cons.injEq] at heq
          exact ⟨[], ds ++ [a], by simp [heq.1, heq.2.1]⟩
    rw [cons_append, splitAtPiece?, hd, hr]
    rfl

theorem readComment_append (h : IsWrittenComment s) (tl : List Char) :
    readComment (s.toList ++ '-' :: '-' :: '>' :: tl) = some (.comment s, tl) := by
  rw [readComment, splitAtPiece?_append h.dashes]
  simp [cleaned?_of_isAllowed h.allowed h.unified]

theorem readInstruction_none (h : IsWrittenInstruction t none) (tl : List Char) :
    readInstruction (t.toList ++ '?' :: '>' :: tl) = some (.instruction t none, tl) := by
  have hn : readNcName (t.toList ++ '?' :: '>' :: tl) = some (t, '?' :: '>' :: tl) :=
    readNcName_append h.isNcName fun c hc => by cases hc; decide
  simp [readInstruction, hn, h.notReserved]

theorem readInstruction_some {b : String} (h : IsWrittenInstruction t (some b)) (rest : List Char) :
    readInstruction (t.toList ++ ' ' :: (b.toList ++ '?' :: '>' :: rest)) = some (.instruction t (some b), rest) := by
  have hn : readNcName (t.toList ++ ' ' :: (b.toList ++ '?' :: '>' :: rest))
      = some (t, ' ' :: (b.toList ++ '?' :: '>' :: rest)) :=
    readNcName_append h.isNcName fun c hc => by cases hc; decide
  have hs : skipSpace (' ' :: (b.toList ++ '?' :: '>' :: rest)) = b.toList ++ '?' :: '>' :: rest := by
    rw [skipSpace_space]
    cases hb : b.toList with
    | nil => exact skipSpace_cons (by decide) _
    | cons c cs => exact skipSpace_cons (h.start b rfl c (by simp [hb])) _
  have hcl := cleaned?_of_isAllowed (h.allowed b rfl) (h.unified b rfl)
  simp only [readInstruction, hn]
  simp [h.notReserved, hs, splitAtPiece?_append (h.mark b rfl), hcl, isSpace]

/-! ### Rows of tokens -/

section

variable (entities : Entities) (expand : String → Option (List Token))

/-- A text spells a row of tokens, whatever the bound on their number as long as it is large enough. -/
def Spells (cs : List Char) (tokens : List Token) : Prop :=
  ∀ fuel, cs.length < fuel → readAll entities expand fuel cs = some tokens

theorem spells_nil : Spells entities expand [] [] := by
  intro k hf
  obtain ⟨k, rfl⟩ := exists_succ_of_lt hf
  rfl

variable {entities expand}

theorem Spells.step {tl : List Char} {f back : List Token}
    (hr : readTokens entities expand cs = some (f, tl)) (hl : tl.length < cs.length)
    (h : Spells entities expand tl back) : Spells entities expand cs (f ++ back) := by
  intro k hf
  obtain ⟨k, rfl⟩ := exists_succ_of_lt hf
  cases cs with
  | nil => simp at hl
  | cons c cs =>
    rw [readAll, hr]
    simp [h k (by omega)]

variable {rest tl : List Char} {back : List Token}

theorem Spells.comment (h : Spells entities expand tl back) (hs : IsWrittenComment s) :
    Spells entities expand ((Node.comment s).chars ++ tl) (.comment s :: back) := by
  have hr : readTokens entities expand ((Node.comment s).chars ++ tl) = some ([.comment s], tl) := by
    simp [Node.chars, readTokens, readComment_append hs]
  refine Spells.step hr ?_ h
  simp only [Node.chars, length_append, length_cons]
  omega

theorem Spells.instruction (h : Spells entities expand tl back) {b : Option String} (hs : IsWrittenInstruction t b) :
    Spells entities expand ((Node.instruction t b).chars ++ tl) (.instruction t b :: back) := by
  have hr : readTokens entities expand ((Node.instruction t b).chars ++ tl) = some ([.instruction t b], tl) := by
    cases b with
    | none => simp [Node.chars, readTokens, readInstruction_none hs]
    | some b => simp [Node.chars, readTokens, readInstruction_some hs]
  refine Spells.step hr ?_ h
  cases b <;> simp only [Node.chars, length_append, length_cons] <;> omega

theorem readTokens_startTag (hc : isNameStart c) (cs : List Char) : readTokens entities expand ('<' :: c :: cs)
      = (readStartTag entities (c :: cs)).map fun (t, tl) => ([t], tl) := by
  unfold readTokens
  split
  · next heq => exact absurd (cons.inj (cons.inj heq).2).1 (ne_of_isNameStart hc (by decide))
  · next heq => exact absurd (cons.inj (cons.inj heq).2).1 (ne_of_isNameStart hc (by decide))
  · next heq => exact absurd (cons.inj (cons.inj heq).2).1 (ne_of_isNameStart hc (by decide))
  · next heq => exact absurd (cons.inj (cons.inj heq).2).1 (ne_of_isNameStart hc (by decide))
  · next heq =>
    cases heq
    rfl
  · next heq => exact absurd (cons.inj heq).1 (by decide)
  · next hl _ => exact absurd rfl (hl _)

theorem Spells.startTag (h : Spells entities expand tl back) {tag : Tag} (ht : tag.IsWritten) (cl : Bool) :
    Spells entities expand ('<' :: (tag.charsBy w ++ (tagEnd cl ++ tl)))
      (.startTag tag.name.raw tag.rawAttributes cl :: back) := by
  have hr : readTokens entities expand ('<' :: (tag.charsBy w ++ (tagEnd cl ++ tl)))
      = some ([.startTag tag.name.raw tag.rawAttributes cl], tl) := by
    obtain ⟨c, cs, hc, hs⟩ := exists_of_isWritten ht.name
    have hta := readStartTag_append w entities ht cl tl
    rw [Tag.charsBy, hc] at hta ⊢
    simp only [cons_append] at hta ⊢
    rw [readTokens_startTag hs, hta]
    rfl
  refine Spells.step hr ?_ h
  simp only [length_append, length_cons]
  omega

theorem Spells.endTag (h : Spells entities expand tl back) (hn : name.IsWritten) :
    Spells entities expand ('<' :: '/' :: (name.chars ++ '>' :: tl)) (.endTag name :: back) := by
  have hr : readTokens entities expand ('<' :: '/' :: (name.chars ++ '>' :: tl)) = some ([.endTag name], tl) := by
    simp [readTokens, readEndTag_append hn]
  refine Spells.step hr ?_ h
  simp only [length_append, length_cons]
  omega

/-! ### Character data -/

theorem Spells.escaped (h : Spells entities expand tl back) (hc : w.text.escaped c) :
    Spells entities expand (w.text.chars c ++ tl) (.verbatim [c] :: back) := by
  obtain ⟨name, hn, -, href⟩ := w.text.reference c hc
  have hr : readTokens entities expand (w.text.chars c ++ tl) = some ([.verbatim [c]], tl) := by
    rw [hn, cons_append, readTokens, href]
    rfl
  refine Spells.step hr ?_ h
  rw [hn]
  simp only [cons_append, length_append, length_cons]
  omega

/-- The parts of a run of characters that are written as they are. -/
def runTokens (run : List Char) (follow : Follow) : List Token :=
  if (run.dropWhile isQuick).isEmpty then [.data run follow]
  else dataToken (run.takeWhile isQuick) .other ++ [.data (run.dropWhile isQuick) follow]

/-- A text that ends a run of character data. -/
def EndsData (cs : List Char) : Prop := ∃ c after, cs = c :: after ∧ isData c = false

theorem hasPiece_of_not_mem (h : '>' ∉ cs) : hasPiece [']', ']', '>'] cs = false := by
  induction cs with
  | nil => rfl
  | cons c cs ih =>
    rw [mem_cons, not_or] at h
    rw [hasPiece, ih h.2]
    cases hp : isPrefixOf [']', ']', '>'] (c :: cs) with
    | false => rfl
    | true =>
      have hm : '>' ∈ c :: cs := ( isPrefixOf_iff_prefix.mp hp).subset (by simp)
      simp_all

theorem splitData_eq {run : List Char} (hn : run ≠ []) (h : ∀ c ∈ run, isEscaped c = false) (post : List Char)
    (k : Nat) : splitData post (k + 1) run = runTokens run (Follow.of post) := by
  rw [splitData, runTokens]
  cases hdr : run.dropWhile isQuick with
  | nil =>
    have hq : run.takeWhile isQuick = run := by
      have := takeWhile_append_dropWhile (p := isQuick) (l := run)
      rwa [hdr, append_nil] at this
    simp [hq, dataToken, hn]
  | cons c cs =>
    have hm : ∀ d ∈ c :: cs, d ∈ run := fun d hd => (dropWhile_suffix _).subset (hdr ▸ hd)
    have hp := h c (hm c mem_cons_self)
    simp only [isEscaped, Bool.or_eq_false_iff, beq_eq_false_iff_ne] at hp
    have hre : '\r' ∉ c :: cs := fun hr => absurd (h _ (hm _ hr)) (by decide)
    have hf : Follow.of (c :: cs) = .other := by
      unfold Follow.of
      split <;> simp_all
    split
    · next heq => cases heq
    · next heq => exact absurd (cons.inj heq).1 hp.2
    · rw [unifyNewlines_of_not_mem hre, hf]
      simp [dataToken]

theorem readTokens_data (hc : isData c) (cs : List Char) :
    readTokens entities expand (c :: cs) = readData (c :: cs) := by
  simp only [isData, Bool.and_eq_true, bne_iff_ne, ne_eq] at hc
  unfold readTokens
  split
  · next heq => exact absurd (cons.inj heq).1 hc.1
  · next heq => exact absurd (cons.inj heq).1 hc.1
  · next heq => exact absurd (cons.inj heq).1 hc.1
  · next heq => exact absurd (cons.inj heq).1 hc.1
  · next heq => exact absurd (cons.inj heq).1 hc.1
  · next heq => exact absurd (cons.inj heq).1 hc.2
  · rfl

theorem Spells.run (h : Spells entities expand rest back) {run : List Char} (hn : run ≠ [])
    (hp : ∀ c ∈ run, isEscaped c = false) (ha : ∀ c ∈ run, isAllowed c) (hr : EndsData rest) :
    Spells entities expand (run ++ rest) (runTokens run (Follow.of rest) ++ back) := by
  have hd : ∀ c ∈ run, isData c := by
    simp_all [isEscaped, isData]
  have ht : (run ++ rest).takeWhile isData = run := by
    obtain ⟨c, post, rfl, hc⟩ := hr
    rw [takeWhile_append_of_pos hd]
    simp [hc]
  have hdr : (run ++ rest).dropWhile isData = rest := by
    obtain ⟨c, post, rfl, hc⟩ := hr
    rw [dropWhile_append_of_pos hd]
    simp [hc]
  have hre : readTokens entities expand (run ++ rest) = some (runTokens run (Follow.of rest), rest) := by
    obtain ⟨c, cs, rfl⟩ := exists_cons_of_ne_nil hn
    have hg : '>' ∉ c :: cs := fun hm => absurd (hp _ hm) (by decide)
    have hf : ((c :: cs).all isAllowed && !Text.hasPiece [']', ']', '>'] (c :: cs)) := by
      rw [hasPiece_of_not_mem hg, all_eq_true.mpr ha]
      rfl
    rw [cons_append, readTokens_data (hd c mem_cons_self), ← cons_append, readData, ht, hdr]
    simp only [hf, if_true, splitData_eq hn hp]
  refine Spells.step hre ?_ h
  have := length_pos_iff.mpr hn
  simp only [length_append]
  omega

end

end ProcessForge.Xml
