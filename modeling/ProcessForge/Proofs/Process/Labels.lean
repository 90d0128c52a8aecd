import ProcessForge.Process.Label
import ProcessForge.Proofs.Text.Trim

/-! Labels of data objects read back. A label is written from a variable, a type and a state, on one line or on
    two. Main statement: reading gives the three parts again, whatever characters they are made of besides the
    ones that divide a label. -/

namespace ProcessForge.DataObject

open List Text

variable {front name type state st gap tl cs : List Char} {separator : Char} {l v t s : String}

theorem forall_ne_of_not_mem (h : separator ∉ cs) : ∀ c ∈ cs, (c != separator) := fun c hc => by
  simpa using fun heq : c = separator => h (heq ▸ hc)

theorem splitFirst?_eq_none (h : separator ∉ cs) : splitFirst? separator cs = none := by
  rw [splitFirst?, dropWhile_eq_nil_iff.mpr (forall_ne_of_not_mem h)]

/-! ### The type -/

theorem trimChars_space (cs : List Char) : trimChars (' ' :: cs) = trimChars cs := by
  have hb : ∀ c ∈ [' '], isBlank c := by simpa using by decide
  simpa [trimChars] using trimBy_append cs hb (forall_mem_nil _)

/-- Behind the colon stand a blank, the type, and what follows up to the closing bracket. -/
theorem trimChars_closed (hne : type ≠ []) (ht : trimChars type = type) (tl : List Char) :
    trimChars (' ' :: (type ++ tl ++ [']'])) = type ++ tl ++ [']'] := by
  rw [trimChars_space]
  refine trimBy_eq_self (fun c hc => ?_) fun c hc => ?_
  · obtain ⟨d, ds, rfl⟩ := exists_cons_of_ne_nil hne
    apply head?_trimBy isBlank (d :: ds) c
    rw [← trimChars, ht]
    exact hc
  · rw [getLast?_concat, Option.mem_some_iff] at hc
    rw [← hc]
    decide

theorem typeOf_plain (ht : trimChars type = type) (hb : '\n' ∉ type) (hbr : '[' ∉ type) :
    typeOf (' ' :: type) = type := by
  simp [typeOf, trimChars_space, ht, splitFirst?_eq_none hb, splitFirst?_eq_none hbr]

theorem typeOf_line (hne : type ≠ []) (ht : trimChars type = type) (hb : '\n' ∉ type) (tl : List Char) :
    typeOf (' ' :: (type ++ '\n' :: tl ++ [']'])) = type := by
  rw [typeOf, trimChars_closed hne ht, append_assoc, cons_append]
  simp [splitFirst?_append hb, ht]

theorem typeOf_bracket (hne : type ≠ []) (ht : trimChars type = type) (hb : '\n' ∉ type) (hbr : '[' ∉ type)
    (hg : ∀ c ∈ gap, c = ' ') (hs : '\n' ∉ st) :
    typeOf (' ' :: (type ++ (gap ++ '[' :: st) ++ [']'])) = type := by
  have hgap : ∀ c : Char, c ≠ ' ' → c ∉ gap := fun c hc hm => hc (hg c hm)
  have hno : '\n' ∉ (type ++ gap) ++ '[' :: (st ++ [']']) := by simp [hb, hs, hgap '\n' (by decide)]
  have hf : '[' ∉ type ++ gap := by simp [hbr, hgap '[' (by decide)]
  have htg : trimChars (type ++ gap) = trimChars type := by
    have hgb : ∀ c ∈ gap, isBlank c := fun c hc => by rw [hg c hc]; decide
    simpa [trimChars] using trimBy_append type (forall_mem_nil _) hgb
  have hsp : type ++ (gap ++ '[' :: st) ++ [']'] = (type ++ gap) ++ '[' :: (st ++ [']']) := by simp
  rw [typeOf, trimChars_closed hne ht, hsp]
  simp only [splitFirst?_eq_none hno, splitFirst?_append hf, htg, ht]

/-! ### The state -/

theorem stateOf?_append (hf : '[' ∉ front ∧ ']' ∉ front) (hs : ']' ∉ state) : stateOf? (front ++ '[' :: state ++ [']'])
      = if (trimChars state).isEmpty then none else some (trimChars state) := by
  have ho : (front ++ '[' :: state ++ [']']).takeWhile (· != '[') = front := by
    rw [append_assoc, takeWhile_append_of_pos (forall_ne_of_not_mem hf.1)]
    simp
  have hc : (front ++ '[' :: state ++ [']']).takeWhile (· != ']') = front ++ '[' :: state := by
    rw [takeWhile_append_of_pos (forall_ne_of_not_mem (by simp [hf.2, hs]))]
    simp
  have hd : ((front ++ '[' :: state ++ [']']).take (front ++ '[' :: state).length).drop (front.length + 1) = state := by
    rw [take_left]
    simp
  simp only [stateOf?, ho, hc, hd]
  simp

theorem stateOf?_of_not_mem (h : '[' ∉ front) : stateOf? front = none := by simp [stateOf?, h]

/-! ### Labels -/

theorem readLabel_colon (hv : ':' ∉ name) (hn : trimChars name = name) (hl : l.toList = name ++ ':' :: tl) :
    readLabel l = (some (String.ofList name), some (String.ofList (typeOf tl)),
      (stateOf? l.toList).map String.ofList) := by
  have hb : isBlankText l = false := by
    simp only [isBlankText, hl, all_append, all_cons]
    simp [show isBlank ':' = false by decide]
  rw [readLabel, hb]
  simp [hl, splitFirst?_append hv, hn]

/-- Texts that are not empty and have no blanks around them and none of some characters in them. -/
structure IsPart (barred : List Char) (s : String) : Prop where
  nonempty : s ≠ ""
  trimmed : trim s = s
  free : ∀ c ∈ barred, c ∉ s.toList

theorem IsPart.trimChars_eq {barred : List Char} (h : IsPart barred s) : trimChars s.toList = s.toList := by
  simpa [trim] using congrArg String.toList h.trimmed

theorem IsPart.toList_ne_nil {barred : List Char} (h : IsPart barred s) : s.toList ≠ [] := by
  simpa using h.nonempty

theorem readLabel_of_not_mem (h : ':' ∉ l.toList) : (readLabel l).1 = none ∧ (readLabel l).2.1 = none := by
  rw [readLabel]
  split
  · exact ⟨rfl, rfl⟩
  · simp [splitFirst?_eq_none h]

/-- A label with a state in brackets gives the variable, the type, if it is found behind the colon, and the state. -/
theorem readLabel_brackets (gap : List Char) (hv : IsPart [':', '[', ']'] v) (ht : IsPart ['\n', '[', ']'] t)
    (hg : '[' ∉ gap ∧ ']' ∉ gap) (hs : ']' ∉ st)
    (hl : l.toList = v.toList ++ ':' :: ' ' :: (t.toList ++ (gap ++ '[' :: st) ++ [']']))
    (hty : typeOf (' ' :: (t.toList ++ (gap ++ '[' :: st) ++ [']'])) = t.toList) : readLabel l
      = (some v, some t, if trimChars st = [] then none else some (String.ofList (trimChars st))) := by
  have hf : l.toList = (v.toList ++ ':' :: ' ' :: (t.toList ++ gap)) ++ '[' :: st ++ [']'] := by simp [hl]
  have hfree : ∀ c ∈ ['[', ']'], c ∉ v.toList ++ ':' :: ' ' :: (t.toList ++ gap) := by simp [hv.free, ht.free, hg]
  rw [readLabel_colon (hv.free ':' (by simp)) hv.trimChars_eq hl, hf,
    stateOf?_append ⟨hfree _ (by simp), hfree _ (by simp)⟩ hs, hty]
  simp only [String.ofList_toList, List.isEmpty_iff]
  split <;> rfl

/-- A variable, a type and a state are read back from the labels that are written with them. -/
theorem label_parts_read_back (hv : IsPart [':', '[', ']'] v) (ht : IsPart ['\n', '[', ']'] t)
    (hs : IsPart ['[', ']'] s) : readLabel (v ++ ": " ++ t ++ "\n[" ++ s ++ "]") = (some v, some t, some s) ∧
    ('\n' ∉ s.toList → readLabel (v ++ ": " ++ t ++ "[" ++ s ++ "]") = (some v, some t, some s) ∧
      readLabel (v ++ ": " ++ t ++ " [" ++ s ++ "]") = (some v, some t, some s)) ∧
    readLabel (v ++ ": " ++ t) = (some v, some t, none) ∧
    readLabel (v ++ ": " ++ t ++ "\n[]") = (some v, some t, none) ∧
    ∀ label : String, ':' ∉ label.toList → (readLabel label).1 = none ∧ (readLabel label).2.1 = none := by
  have hne := ht.toList_ne_nil
  have htr := ht.trimChars_eq
  have hb : '\n' ∉ t.toList := ht.free _ (by decide)
  have hbr : '[' ∉ t.toList := ht.free _ (by decide)
  have hst : (if trimChars s.toList = [] then none else some (String.ofList (trimChars s.toList))) = some s := by
    rw [hs.trimChars_eq, if_neg hs.toList_ne_nil, String.ofList_toList]
  have hsb : ']' ∉ s.toList := hs.free _ (by decide)
  refine ⟨?_, fun hn => ⟨?_, ?_⟩, ?_, ?_, fun _ => readLabel_of_not_mem⟩
  · rw [← hst]
    exact readLabel_brackets ['\n'] hv ht (by decide) hsb (by simp) (typeOf_line hne htr hb _)
  · rw [← hst]
    exact readLabel_brackets [] hv ht (by decide) hsb (by simp)
      (typeOf_bracket hne htr hb hbr (forall_mem_nil _) hn)
  · rw [← hst]
    exact readLabel_brackets [' '] hv ht (by decide) hsb (by simp)
      (typeOf_bracket hne htr hb hbr (by simp) hn)
  · have hl : (v ++ ": " ++ t).toList = v.toList ++ ':' :: ' ' :: t.toList := by simp
    have hno : '[' ∉ (v ++ ": " ++ t).toList := by simp [hv.free, hbr]
    rw [readLabel_colon (hv.free ':' (by simp)) hv.trimChars_eq hl, typeOf_plain htr hb hbr, stateOf?_of_not_mem hno]
    simp
  · exact readLabel_brackets ['\n'] hv ht (by decide) not_mem_nil (by simp) (typeOf_line hne htr hb _)

theorem label_parts_read_back_in_work : IsPart [':', '[', ']'] "loan\nfile" ∧ IsPart ['\n', '[', ']'] "a: Loan" ∧
    IsPart ['[', ']'] "in work" ∧
    readLabel "loan\nfile: a: Loan\n[in work]" = (some "loan\nfile", some "a: Loan", some "in work") :=
  have hv : IsPart [':', '[', ']'] "loan\nfile" := ⟨by decide, by decide, by simp⟩
  have ht : IsPart ['\n', '[', ']'] "a: Loan" := ⟨by decide, by decide, by simp⟩
  have hs : IsPart ['[', ']'] "in work" := ⟨by decide, by decide, by simp⟩
  ⟨hv, ht, hs, (label_parts_read_back hv ht hs).1⟩

end ProcessForge.DataObject
