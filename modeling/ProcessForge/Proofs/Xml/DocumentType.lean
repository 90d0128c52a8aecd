import ProcessForge.Proofs.Xml.Declarations

/-! Document types. A document type that is read is written as a keyword, a name, identifiers in quotes and
    declarations. What has that form is read again, and it keeps the form when its blank lines are taken out. -/

namespace ProcessForge.Xml

open List Text
open Option (bind_eq_some_iff map_eq_some_iff some.inj)

open Text (tidy isInk)

variable {t : Doctype} {forms fs : List Form} {publicId systemId : Option String} {c : Char} {cs rest tl : List Char}

/-! ### Whole document types -/

/-- A document type that can be written. -/
structure Doctype.IsWritten (t : Doctype) : Prop where
  isNcName : isNcName t.name = true
  publicId : ∀ pub, t.publicId = some pub → '"' ∉ pub.toList ∧ t.systemId.isSome = true
  systemId : ∀ system, t.systemId = some system → IsQuotable system.toList
  declarations : ∃ forms : List Form, (∀ form ∈ forms, form.IsWritten) ∧ t.declarations = forms.map Form.text

/-- The identifiers of a document type as they are written. -/
def externalChars (publicId systemId : Option String) : List Char :=
  match publicId, systemId with
  | some pub, some system =>
    [' ', 'P', 'U', 'B', 'L', 'I', 'C', ' ', '"'] ++ (pub.toList ++ '"' :: ' ' :: quotedChars system.toList)
  | some pub, none => [' ', 'P', 'U', 'B', 'L', 'I', 'C', ' ', '"'] ++ (pub.toList ++ ['"'])
  | none, some system => [' ', 'S', 'Y', 'S', 'T', 'E', 'M', ' '] ++ quotedChars system.toList
  | none, none => []

/-- The declarations of a document type as they are written, with what closes it. -/
def internalChars (forms : List Form) : List Char :=
  if forms.isEmpty then ['>', '\n'] else ' ' :: '[' :: '\n' :: (forms.flatMap Form.chars ++ [']', '>', '\n'])

theorem toList_render_doctype (h : t.declarations = forms.map Form.text) :
    t.render.toList = "<!DOCTYPE".toList ++ ' ' :: (t.name.toList
      ++ (externalChars t.publicId t.systemId ++ internalChars forms)) := by
  obtain ⟨name, publicId, systemId, declarations⟩ := t
  simp only at h
  have he : declarations.isEmpty = forms.isEmpty := by rw [h, isEmpty_map]
  have hj : (String.join declarations).toList = forms.flatMap Form.chars := by
    simp only [h, String.toList_join, flatMap_map]
    rfl
  have hin : (if declarations.isEmpty then ">\n" else " [\n" ++ String.join declarations ++ "]>\n").toList
      = internalChars forms := by
    rw [he, internalChars]
    split <;> simp [hj]
  unfold Doctype.render
  simp only [String.toList_append, hin]
  match publicId, systemId with
  | none, none => simp [externalChars]
  | none, some system => simp [externalChars, toList_quoted]
  | some pub, none => simp [externalChars]
  | some pub, some system => simp [externalChars, toList_quoted]

theorem skipSpace_skipSpace (cs : List Char) : skipSpace (skipSpace cs) = skipSpace cs := by
  cases hs : skipSpace cs with
  | nil => rfl
  | cons c ms => rw [skipSpace_cons (not_isSpace_of_head?_skipSpace (by rw [hs]; rfl))]

theorem readExternal_append (hp : ∀ pub, publicId = some pub → '"' ∉ pub.toList ∧ systemId.isSome)
    (hsy : ∀ system, systemId = some system → IsQuotable system.toList) (hc : c = '>' ∨ c = '[') {more : List Char}
    (hcs : skipSpace cs = c :: more) :
    ∃ post, readExternal (skipSpace (externalChars publicId systemId ++ cs)) = some (publicId, systemId, post) ∧
      skipSpace post = c :: more := by
  match publicId, systemId with
  | none, none =>
    refine ⟨c :: more, ?_, by rw [← hcs, skipSpace_skipSpace]⟩
    rw [externalChars, nil_append, hcs]
    rcases hc with rfl | rfl <;> rfl
  | none, some system =>
    have hs : skipSpace (externalChars none (some system) ++ cs)
        = "SYSTEM".toList ++ ' ' :: (quotedChars system.toList ++ cs) := by
      simp [externalChars, skipSpace, isSpace]
    refine ⟨cs, ?_, hcs⟩
    unfold readExternal
    rw [hs, dropPrefix?_append]
    simp [readQuoted_space (hsy system rfl)]
  | some pub, none => exact absurd (hp pub rfl).2 (by simp)
  | some pub, some system =>
    have hpu := (hp pub rfl).1
    have hs : skipSpace (externalChars (some pub) (some system) ++ cs)
        = "PUBLIC".toList ++ ' ' :: (quotedChars pub.toList ++ ' ' :: (quotedChars system.toList ++ cs)) := by
      simp [externalChars, skipSpace, isSpace, quotedChars, quoteOf, hpu]
    have hn : Text.dropPrefix? "SYSTEM".toList ("PUBLIC".toList ++ ' ' :: (quotedChars pub.toList
        ++ ' ' :: (quotedChars system.toList ++ cs))) = none := rfl
    refine ⟨cs, ?_, hcs⟩
    unfold readExternal
    rw [hs, hn, dropPrefix?_append]
    simp [readQuoted_space (.inl hpu), readQuoted_space (hsy system rfl)]

/-- The declarations of a document type, if it has any. -/
def readInternal (cs : List Char) : Option (List Declared × List Char) :=
  match skipSpace cs with
  | '[' :: rest => readDeclaredAll (rest.length + 1) rest
  | rest => some ([], rest)

theorem readInternal_of_bracket {more : List Char} (h : skipSpace cs = '[' :: more) :
    readInternal cs = readDeclaredAll (more.length + 1) more := by
  unfold readInternal
  rw [h]
  rfl

theorem readInternal_of_not (h : ∀ ms, skipSpace cs ≠ '[' :: ms) : readInternal cs = some ([], skipSpace cs) := by
  unfold readInternal
  split
  · next ms hm => exact absurd hm (h ms)
  · rfl

theorem ofList_chars_rawName (name : RawName) : (match name.short with
    | some sh => sh ++ ":" ++ name.stem
    | none => name.stem) = String.ofList name.chars := by
  obtain ⟨sh, s⟩ := name
  cases sh <;> simp [RawName.chars, String.ofList_append, String.append_assoc]

theorem readDoctype_eq (cs : List Char) : readDoctype cs = (readName (skipSpace cs)).bind fun (name, tl) =>
    (readExternal (skipSpace tl)).bind fun (publicId, systemId, tl) => (readInternal tl).bind
      fun (d, tl) => (closeDeclaration? tl).bind fun tl => some
        (⟨String.ofList name.chars, publicId, systemId, d.filterMap Declared.written⟩,
          d.filterMap Declared.entity, tl) := by
  refine Option.bind_congr fun named _ => Option.bind_congr fun external _ => ?_
  simp only [← ofList_chars_rawName]
  split
  · next more hbo =>
    rw [readInternal_of_bracket hbo]
    rfl
  · next hb =>
    rw [readInternal_of_not hb]
    rfl

theorem readInternal_append (h : ∀ form ∈ fs, form.IsWritten)
    (hc : skipSpace cs = skipSpace (internalChars fs ++ rest)) :
    ∃ d, readInternal cs = some (d, '>' :: '\n' :: rest) := by
  unfold internalChars at hc
  split at hc
  · have hb : skipSpace cs = '>' :: '\n' :: rest := by
      rw [hc]
      exact skipSpace_cons (by decide) _
    exact ⟨[], by rw [readInternal_of_not (by simp [hb]), hb]⟩
  · have hb : skipSpace cs = '[' :: '\n' :: (fs.flatMap Form.chars ++ ']' :: '>' :: '\n' :: rest) := by
      rw [hc]
      simp [skipSpace, isSpace]
    have hf : fs.length < ('\n' :: (fs.flatMap Form.chars ++ ']' :: '>' :: '\n' :: rest)).length + 1 := by
      have := length_le_flatMap (f := Form.chars) (fun form hni => by simpa [hni] using head?_form_chars form) fs
      simp only [length_cons, length_append]
      omega
    rw [readInternal_of_bracket hb]
    exact readDeclaredAll_append _ h _ hf

theorem readName_of_isNcName {name : String} (h : isNcName name) (he : EndsName cs) :
    readName (skipSpace (' ' :: (name.toList ++ cs))) = some (⟨none, name⟩, cs) := by
  have hr : RawName.IsWritten ⟨none, name⟩ := ⟨by simp, h⟩
  rw [skipSpace_space, skipSpace_of_isNcName h]
  exact readName_append hr he

theorem readType_append (h : t.IsWritten) (tl : List Char) :
    ∃ t' ents, readType (t.render.toList ++ tl) = some (some t', ents, '\n' :: tl) := by
  obtain ⟨fs, hf, hd⟩ := h.declarations
  obtain ⟨c, ms, hc, hs, hen⟩ : ∃ c ms, (c = '>' ∨ c = '[') ∧
      skipSpace (internalChars fs ++ tl) = c :: ms ∧ EndsName (internalChars fs ++ tl) := by
    unfold internalChars
    split
    · exact ⟨'>', _, .inl rfl, skipSpace_cons (by decide) _, endsName_cons (by decide) (by decide) _⟩
    · exact ⟨'[', '\n' :: (fs.flatMap Form.chars ++ ']' :: '>' :: '\n' :: tl), .inr rfl,
        by simp [skipSpace, isSpace], endsName_cons (by decide) (by decide) _⟩
  have he : EndsName (externalChars t.publicId t.systemId ++ (internalChars fs ++ tl)) := by
    rcases t.publicId with _ | publicId <;> rcases t.systemId with _ | systemId
    · exact hen
    all_goals exact endsName_cons (by decide) (by decide) _
  have hn := readName_of_isNcName h.isNcName he
  obtain ⟨post, hex, ha⟩ := readExternal_append h.publicId h.systemId hc hs
  obtain ⟨d, hin⟩ := readInternal_append hf (ha.trans hs.symm)
  have hsh : t.render.toList ++ tl = "<!DOCTYPE".toList ++ ' ' :: (t.name.toList
      ++ (externalChars t.publicId t.systemId ++ (internalChars fs ++ tl))) := by
    rw [toList_render_doctype hd]
    simp
  refine ⟨⟨String.ofList t.name.toList, t.publicId, t.systemId, d.filterMap Declared.written⟩,
    d.filterMap Declared.entity, ?_⟩
  unfold readType
  rw [hsh, dropPrefix?_append]
  simp only [readDoctype_eq, hn, hex, hin, Option.bind_some, closeDeclaration?_bracket]
  rfl

theorem isQuotable_of_readExternal (h : readExternal cs = some (publicId, systemId, tl)) :
    (∀ pub, publicId = some pub → systemId.isSome) ∧
    ∀ system, systemId = some system → IsQuotable system.toList := by
  unfold readExternal at h
  split at h
  · obtain ⟨⟨system, rest₁⟩, hsy, h⟩ := bind_eq_some_iff.mp h
    cases h
    refine ⟨by simp, fun s hs => ?_⟩
    cases hs
    simpa using isQuotable_of_readQuoted hsy
  · split at h
    · obtain ⟨⟨pub, rest₁⟩, -, h⟩ := bind_eq_some_iff.mp h
      obtain ⟨⟨system, rest₂⟩, hsy, h⟩ := bind_eq_some_iff.mp h
      cases h
      refine ⟨by simp, fun s hs => ?_⟩
      cases hs
      simpa using isQuotable_of_readQuoted hsy
    · cases h
      exact ⟨by simp, by simp⟩

theorem exists_forms_of_readInternal {d : List Declared} (h : readInternal cs = some (d, tl)) :
    ∃ fs : List Form, (∀ form ∈ fs, form.IsWritten) ∧ d.filterMap Declared.written = fs.map Form.text := by
  unfold readInternal at h
  split at h
  · exact exists_forms_of_readDeclaredAll h
  · cases h
    exact ⟨[], by simp, rfl⟩

/-- The public identifier is written in double quotes, so it is cut at the first one. -/
theorem not_mem_of_readExternal {pub : String}
    (h : readExternal ("PUBLIC".toList ++ ' ' :: '"' :: cs) = some (publicId, systemId, tl))
    (hp : publicId = some pub) : '"' ∉ pub.toList := by
  obtain ⟨⟨f, rest₁⟩, hf, h⟩ := bind_eq_some_iff.mp h
  obtain ⟨⟨system, rest₂⟩, -, h⟩ := bind_eq_some_iff.mp h
  cases h
  cases hp
  rw [String.toList_ofList]
  exact not_mem_of_splitFirst? hf

theorem isWritten_of_readType {u : List Char} {ents : Entities} (hn : isNcName t.name)
    (h : readType (t.render.toList ++ tl) = some (some t, ents, u)) : t.IsWritten := by
  unfold readType at h
  split at h
  · next body hb =>
    obtain ⟨⟨t', entities', inner'⟩, hr, heq⟩ := map_eq_some_iff.mp h
    cases heq
    rw [readDoctype_eq] at hr
    obtain ⟨⟨name, rest₁⟩, hn₁, hr⟩ := bind_eq_some_iff.mp hr
    obtain ⟨⟨publicId, systemId, rest₂⟩, he, hr⟩ := bind_eq_some_iff.mp hr
    obtain ⟨⟨d, rest₃⟩, hin, hr⟩ := bind_eq_some_iff.mp hr
    obtain ⟨rest₄, -, hr⟩ := bind_eq_some_iff.mp hr
    cases hr
    obtain ⟨fs, hf, hd⟩ := exists_forms_of_readInternal hin
    obtain ⟨hid, hs⟩ := isQuotable_of_readExternal he
    refine ⟨hn, fun pub hp => ⟨?_, hid pub hp⟩, hs, fs, hf, hd⟩
    obtain ⟨system, rfl⟩ := Option.isSome_iff_exists.mp (hid pub hp)
    subst hp
    rw [toList_render_doctype hd, append_assoc, dropPrefix?_append] at hb
    obtain rfl := some.inj hb
    have hen : EndsName (externalChars (some pub) (some system) ++ (internalChars fs ++ tl)) :=
      endsName_cons (by decide) (by decide) _
    simp only [cons_append, append_assoc] at hn hn₁
    rw [readName_of_isNcName hn hen] at hn₁
    obtain rfl := (Prod.mk.inj (some.inj hn₁)).2
    exact not_mem_of_readExternal he rfl
  · cases h

/-! ### Blank lines of document types -/

theorem exists_ink_of_forms (fs : List Form) (hc : isInk c) (rest : List Char) :
    ∃ d ds, fs.flatMap Form.chars ++ c :: rest = d :: ds ∧ isInk d := by
  cases fs with
  | nil => exact ⟨c, rest, rfl, hc⟩
  | cons form fs =>
    obtain ⟨tl, ht⟩ := head?_eq_some_iff.mp (head?_form_chars form)
    exact ⟨'<', tl ++ (fs.flatMap Form.chars ++ c :: rest), by simp [ht], by decide⟩

theorem tidy_forms (hc : isInk c) (tl : List Char) : ∀ {fs : List Form}, (∀ form ∈ fs, form.IsWritten) →
    tidy (fs.flatMap Form.chars ++ c :: tl) = (fs.map Form.tidied).flatMap Form.chars ++ tidy (c :: tl)
  | [], _ => rfl
  | form :: fs, h => by
    rw [forall_mem_cons] at h
    obtain ⟨d, ds, hds, hd⟩ := exists_ink_of_forms fs hc tl
    rw [flatMap_cons, append_assoc, hds, tidy_form_chars h.1 hd, ← hds, tidy_forms hc tl h.2,
      map_cons, flatMap_cons, append_assoc]

theorem tidy_internalChars (hc : isInk c) (tl : List Char) (h : ∀ form ∈ fs, form.IsWritten) :
    tidy (internalChars fs ++ c :: tl) = internalChars (fs.map Form.tidied) ++ tidy (c :: tl) := by
  cases fs with
  | nil =>
    have ha : tidy ('>' :: '\n' :: c :: tl) = '>' :: '\n' :: tidy (c :: tl) := by
      rw [tidy_cons (by decide), tidy_newline_cons hc]
    exact ha
  | cons form fs =>
    have he : tidy (']' :: '>' :: '\n' :: c :: tl) = ']' :: '>' :: '\n' :: tidy (c :: tl) := by
      rw [tidy_cons (by decide), tidy_cons (by decide), tidy_newline_cons hc]
    have hf := tidy_forms (by decide : isInk ']') ('>' :: '\n' :: c :: tl) h
    obtain ⟨d, ds, hds, hd⟩ := exists_ink_of_forms (form :: fs) (by decide : isInk ']') ('>' :: '\n' :: c :: tl)
    have ha : tidy (' ' :: '[' :: '\n' :: ((form :: fs).flatMap Form.chars ++ ']' :: '>' :: '\n' :: c :: tl))
        = ' ' :: '[' :: '\n' :: (((form :: fs).map Form.tidied).flatMap Form.chars
          ++ ']' :: '>' :: '\n' :: tidy (c :: tl)) := by
      rw [hds, tidy_cons (by decide), tidy_cons (by decide), tidy_newline_cons hd, ← hds, hf, he]
    simpa [internalChars] using ha

theorem tidy_externalChars (publicId systemId : Option String) (cs : List Char) :
    tidy (externalChars publicId systemId ++ cs)
      = externalChars (publicId.map tidyText) (systemId.map tidyText) ++ tidy cs := by
  match publicId, systemId with
  | none, none => rfl
  | none, some system =>
    have hf : '\n' ∉ [' ', 'S', 'Y', 'S', 'T', 'E', 'M', ' '] := by decide
    have ha := tidy_append hf (quotedChars system.toList ++ cs)
    rw [tidy_quotedChars, ← toList_tidyText] at ha
    simpa [externalChars] using ha
  | some pub, none =>
    have hf : '\n' ∉ [' ', 'P', 'U', 'B', 'L', 'I', 'C', ' ', '"'] := by decide
    have ha := tidy_append hf (pub.toList ++ '"' :: cs)
    rw [tidy_append_cons (by decide), ← toList_tidyText] at ha
    simpa [externalChars] using ha
  | some pub, some system =>
    have hf : '\n' ∉ [' ', 'P', 'U', 'B', 'L', 'I', 'C', ' ', '"'] := by decide
    have ha := tidy_append hf (pub.toList ++ '"' :: ' ' :: (quotedChars system.toList ++ cs))
    rw [tidy_append_cons (by decide), tidy_cons (by decide), tidy_quotedChars, ← toList_tidyText,
      ← toList_tidyText] at ha
    simpa [externalChars] using ha

/-- Taking the blank lines out of a document type gives one that can be written as well. -/
theorem exists_tidy_doctype (h : t.IsWritten) : ∃ t' : Doctype, t'.IsWritten ∧ ∀ {c : Char}, isInk c → ∀ tl : List Char,
    tidy (t.render.toList ++ c :: tl) = t'.render.toList ++ tidy (c :: tl) := by
  obtain ⟨fs, hf, hd⟩ := h.declarations
  refine ⟨⟨t.name, t.publicId.map tidyText, t.systemId.map tidyText, (fs.map Form.tidied).map Form.text⟩,
    ⟨h.isNcName, fun s hs => ?_, fun s hs => ?_, fs.map Form.tidied, ?_, rfl⟩, fun {c} hc tl => ?_⟩
  · obtain ⟨pub, hp, rfl⟩ := map_eq_some_iff.mp hs
    rw [toList_tidyText, Option.isSome_map]
    exact ⟨fun hm => (h.publicId pub hp).1 (mem_of_mem_tidy hm), (h.publicId pub hp).2⟩
  · obtain ⟨system, hsy, rfl⟩ := map_eq_some_iff.mp hs
    rw [toList_tidyText]
    exact (h.systemId system hsy).tidy
  · intro form hfo
    obtain ⟨form, hm, rfl⟩ := mem_map.mp hfo
    exact (hf form hm).tidied
  · have hfr : '\n' ∉ "<!DOCTYPE".toList ++ ' ' :: t.name.toList := by
      simp [not_mem_of_isNcName h.isNcName]
    have ha := tidy_append hfr (externalChars t.publicId t.systemId ++ (internalChars fs ++ c :: tl))
    rw [tidy_externalChars, tidy_internalChars hc tl hf] at ha
    rw [toList_render_doctype hd, toList_render_doctype rfl]
    simpa using ha

end ProcessForge.Xml
