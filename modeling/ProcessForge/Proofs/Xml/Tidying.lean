import ProcessForge.Proofs.Xml.Printable

/-! Blank lines of a written tree. Taking them out of the text of a tree gives the text of the tree whose texts are
    tidied, since tags have no line feeds and every tag separates the texts on its two sides. A tidied tree can be
    written again, so it is read again. -/

namespace ProcessForge.Xml

open List Text

open Text (tidy isInk)

/-! ### Tidied trees can be written -/

theorem toList_tidyText (s : String) : (tidyText s).toList = tidy s.toList := String.toList_ofList

theorem isAllowedText_tidyText {s : String} (h : isAllowedText s) : isAllowedText (tidyText s) := by
  rw [isAllowedText, toList_tidyText, all_eq_true]
  exact fun c hc => all_eq_true.mp h c (mem_of_mem_tidy hc)

theorem pair_of_pair_tidy_append {a b : Char} (ha : isInk a) {cs : List Char}
    (h : [a, b] <:+: tidy cs ++ [a]) : [a, b] <:+: cs ++ [a] := by
  have he : tidy (cs ++ [a]) = tidy cs ++ [a] := tidy_append_cons ha cs []
  exact pair_of_pair_tidy ha (he ▸ h)

theorem IsWrittenComment.tidyText {s : String} (h : IsWrittenComment s) : IsWrittenComment (tidyText s) := by
  refine ⟨isAllowedText_tidyText h.allowed, ?_, ?_⟩
  · rw [toList_tidyText]
    exact fun hm => h.unified (mem_of_mem_tidy hm)
  · rw [toList_tidyText]
    exact fun hp => h.dashes (pair_of_pair_tidy_append (by decide) hp)

theorem IsWrittenInstruction.tidyText {tgt : String} {b : Option String}
    (h : IsWrittenInstruction tgt b) : IsWrittenInstruction tgt (b.map Xml.tidyText) := by
  cases b with
  | none => exact h
  | some b =>
    refine ⟨h.isNcName, h.notReserved, ?_, ?_, ?_, ?_⟩ <;> intro s hs <;> obtain rfl := Option.some.inj hs
    · exact isAllowedText_tidyText (h.allowed b rfl)
    · rw [toList_tidyText]
      exact fun hm => h.unified b rfl (mem_of_mem_tidy hm)
    · rw [toList_tidyText, head?_tidy]
      exact h.start b rfl
    · rw [toList_tidyText]
      exact fun hp => h.mark b rfl (pair_of_pair_tidy_append (by decide) hp)

mutual

theorem isPrintable_mapText_tidyText : ∀ {bs : List Namespace} {n : Node},
    n.IsPrintable bs → (n.mapText tidyText).IsPrintable bs
  | _, .element _ _, h => ⟨h.1, arePrintable_mapTextAll_tidyText h.2⟩
  | _, .text _, h => isAllowedText_tidyText h
  | _, .comment _, h => h.tidyText
  | _, .instruction _ _, h => h.tidyText

theorem arePrintable_mapTextAll_tidyText : ∀ {bs : List Namespace} {ns : List Node},
    ArePrintable bs ns → ArePrintable bs (mapTextAll tidyText ns)
  | _, [], h => h
  | _, _ :: _, h => ⟨isPrintable_mapText_tidyText h.1, arePrintable_mapTextAll_tidyText h.2⟩

end

theorem startsWithText_mapTextAll (f : String → String) (nodes : List Node) :
    startsWithText (mapTextAll f nodes) = startsWithText nodes := by
  cases nodes with
  | nil => rw [mapTextAll]
  | cons n nodes =>
    exact isText_mapText f n

mutual

theorem isJoined_mapText (f : String → String) : ∀ {n : Node}, n.IsJoined → (n.mapText f).IsJoined
  | .element tag ns, h => areJoined_mapTextAll f h
  | .text _, _ | .comment _, _ | .instruction _ _, _ => by simp [Node.mapText, Node.IsJoined]

theorem areJoined_mapTextAll (f : String → String) : ∀ {ns : List Node}, AreJoined ns → AreJoined (mapTextAll f ns)
  | [], h => h
  | n :: ns, h => by
    rw [mapTextAll, AreJoined, isText_mapText, startsWithText_mapTextAll]
    exact ⟨isJoined_mapText f h.1, h.2.1, areJoined_mapTextAll f h.2.2⟩

end

theorem keepsBlankTexts_tidyText : KeepsBlankTexts tidyText := by
  intro s hs
  rw [toList_tidyText, all_eq_true]
  exact fun c hc => all_eq_true.mp hs c (mem_of_mem_tidy hc)

/-! ### Blank lines of a text -/

theorem not_mem_of_isNcName {s : String} (h : isNcName s) : '\n' ∉ s.toList := by
  obtain ⟨c, cs, hs, hc, hcs⟩ := exists_of_isNcName h
  rw [hs, mem_cons, not_or]
  refine ⟨(ne_of_isNameStart hc (by decide)).symm, fun hm => ?_⟩
  exact absurd (all_eq_true.mp hcs _ hm) (by decide)

theorem not_mem_rawName_chars {name : RawName} (h : name.IsWritten) : '\n' ∉ name.chars := by
  obtain ⟨sh, s⟩ := name
  cases sh with
  | none => exact not_mem_of_isNcName h.stem
  | some sh =>
    rw [RawName.chars, mem_append, mem_cons]
    rintro (hm | heq | hm)
    · exact not_mem_of_isNcName (h.short sh rfl) hm
    · exact absurd heq (by decide)
    · exact not_mem_of_isNcName h.stem hm

variable (w : Writer)

theorem not_mem_tag_chars {tag : Tag} (h : tag.IsWritten) : '\n' ∉ tag.charsBy w := by
  rw [Tag.charsBy, mem_append, mem_flatMap]
  rintro (hm | ⟨a, ha, hm⟩)
  · exact not_mem_rawName_chars h.name hm
  · have hn := not_mem_rawName_chars (h.attributes a ha).1
    have hv := not_mem_value w (.inr rfl) a.2.toList
    simp [Writer.attribute, hn, hv] at hm

theorem Writer.keepsBlanks : KeepsBlanks w.text.chars where
  ink c hc d hd := by
    cases he : w.text.escaped c with
    | true =>
      obtain ⟨name, hn, hi, -⟩ := w.text.reference c he
      rw [hn] at hd
      rcases mem_cons.mp hd with rfl | hd
      · rfl
      · exact (Bool.and_eq_true_iff.mp (all_eq_true.mp hi d hd)).1
    | false =>
      rw [w.text.plain c he, mem_singleton] at hd
      exact hd ▸ hc
  ink_ne_nil c _ := by
    cases he : w.text.escaped c with
    | true =>
      obtain ⟨name, hn, -⟩ := w.text.reference c he
      simp [hn]
    | false => simp [w.text.plain c he]
  blank c hc := w.text.plain c (w.blanks c hc)

theorem tidy_text_append (s : String) {rest : List Char} (hr : rest.head? = some '<') :
    tidy ((Node.text s).charsBy w ++ rest) = (Node.text (tidyText s)).charsBy w ++ tidy rest := by
  obtain ⟨post, rfl⟩ := head?_eq_some_iff.mp hr
  rw [tidy_append_cons (by decide), tidy_cons (by decide), Node.charsBy, Node.charsBy, toList_tidyText,
    w.keepsBlanks.tidy]

/-! ### Blank lines of a tree -/

mutual

theorem tidy_chars : ∀ {bs : List Namespace} {n : Node}, n.isText = false →
    n.IsPrintable bs → n.IsJoined → ∀ rest : List Char,
    tidy (n.charsBy w ++ rest) = (n.mapText tidyText).charsBy w ++ tidy rest
  | bs, .text s, ht, _, _, rest => by cases ht
  | bs, .comment s, _, _, _, rest => by
    have hb : tidy (s.toList ++ '-' :: '-' :: '>' :: rest) = (tidyText s).toList ++ '-' :: '-' :: '>' :: tidy rest := by
      rw [tidy_append_cons (by decide), tidy_cons (by decide), tidy_cons (by decide), toList_tidyText]
    simpa [Node.charsBy, Node.chars, Node.mapText, tidy_cons] using hb
  | bs, .instruction tgt none, _, h, _, rest => by
    have hf : '\n' ∉ (Node.instruction tgt none).charsBy w := by
      simp [Node.charsBy, Node.chars, not_mem_of_isNcName h.isNcName]
    simpa [Node.mapText] using tidy_append hf rest
  | bs, .instruction tgt (some b), _, h, _, rest => by
    have hf : '\n' ∉ '<' :: '?' :: (tgt.toList ++ [' ']) := by
      simp [not_mem_of_isNcName h.isNcName]
    have hb : tidy (b.toList ++ '?' :: '>' :: rest) = (tidyText b).toList ++ '?' :: '>' :: tidy rest := by
      rw [tidy_append_cons (by decide), tidy_cons (by decide), toList_tidyText]
    have ha := tidy_append hf (b.toList ++ '?' :: '>' :: rest)
    rw [hb] at ha
    simpa [Node.charsBy, Node.chars, Node.mapText] using ha
  | bs, .element tag [], _, h, _, rest => by
    have hf : '\n' ∉ (Node.element tag []).charsBy w := by
      simp [Node.charsBy, not_mem_tag_chars w h.1.written]
    simpa [Node.mapText, mapTextAll] using tidy_append hf rest
  | bs, .element tag (f :: more), _, h, hj, rest => by
    have ho : '\n' ∉ '<' :: (tag.charsBy w ++ ['>']) := by
      simp [not_mem_tag_chars w h.1.written]
    have hc : '\n' ∉ '<' :: '/' :: (tag.name.raw.chars ++ ['>']) := by
      simp [not_mem_rawName_chars h.1.written.name]
    have he : ('<' :: '/' :: (tag.name.raw.chars ++ ['>']) ++ rest).head? = some '<' := rfl
    have ha := tidy_append ho (charsOfBy w (f :: more) ++ ('<' :: '/' :: (tag.name.raw.chars ++ ['>']) ++ rest))
    rw [tidy_charsOf h.2 hj he, tidy_append hc] at ha
    simpa [Node.charsBy, Node.mapText, mapTextAll] using ha

theorem tidy_charsOf : ∀ {bs : List Namespace} {ns : List Node}, ArePrintable bs ns →
    AreJoined ns → ∀ {tl : List Char}, tl.head? = some '<' →
    tidy (charsOfBy w ns ++ tl) = charsOfBy w (mapTextAll tidyText ns) ++ tidy tl
  | bs, [], _, _, tl, _ => by rw [mapTextAll, charsOfBy, nil_append, nil_append]
  | bs, n :: ns, h, hj, tl, hr => by
    have hn := tidy_charsOf h.2 hj.2.2 hr
    rw [mapTextAll, charsOfBy, charsOfBy, append_assoc, append_assoc, ← hn]
    cases ht : n.isText with
    | true =>
      obtain ⟨s, rfl⟩ : ∃ s, n = .text s := by
        cases n with
        | text s => exact ⟨s, rfl⟩
        | element | comment | instruction => cases ht
      exact tidy_text_append w s (head?_charsOfBy w (hj.2.1 ht) hr)
    | false => exact tidy_chars ht h.1 hj.1 _

end

end ProcessForge.Xml
