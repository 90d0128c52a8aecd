import Mathlib.Data.List.Infix
import Mathlib.Data.List.Nodup
import ProcessForge.Bonita.Email
import ProcessForge.Proofs.Expression.Placeholders
import ProcessForge.Proofs.OrderedMap

/-! Parameters of templates. They are put in one after the other, so a value is searched for the parameters that come
    later. Main statement: if values and parameters do not meet, all parameters are put in at once, whatever their
    order. -/

namespace ProcessForge

open List OrderedMap Text
open String (ofList toList ofList_toList)

/-! ### Replacing one piece -/

namespace Text

variable {piece p new pre rest : List Char} {c : Char}

theorem replaceFrom_eq (p new : List Char) (skip : Nat) (cs : List Char) :
    replaceFrom p new skip cs = replaceAll p new (cs.drop skip) := by
  induction skip generalizing cs with
  | zero => rfl
  | succ skip ih =>
    cases cs with
    | nil => rfl
    | cons c rest => rw [replaceFrom, ih rest, drop_succ_cons]

theorem replaceAll_cons (h : ¬ piece <+: c :: rest) :
    replaceAll piece new (c :: rest) = c :: replaceAll piece new rest := by
  rw [replaceAll, replaceFrom, if_neg (by simpa using h)]
  rfl

theorem replaceAll_piece (hn : p ≠ []) (rest : List Char) :
    replaceAll p new (p ++ rest) = new ++ replaceAll p new rest := by
  obtain ⟨c, p, rfl⟩ := exists_cons_of_ne_nil hn
  rw [cons_append, replaceAll, replaceFrom, if_pos (by simp), replaceFrom_eq, length_cons, Nat.add_sub_cancel,
    drop_left]

theorem replaceAll_skip (h : ∀ t, t <:+ pre → t ≠ [] → ¬ piece <+: t ++ rest) :
    replaceAll piece new (pre ++ rest) = pre ++ replaceAll piece new rest := by
  induction pre with
  | nil => rfl
  | cons c pre ih =>
    have hn : ¬ piece <+: c :: (pre ++ rest) := h (c :: pre) suffix_rfl (cons_ne_nil _ _)
    rw [cons_append, replaceAll_cons hn, ih fun t ht => h t (ht.trans (suffix_cons c pre)), cons_append]

end Text

namespace Bonita

open Expression

variable {accept : List Char → Option (List Char)} {cs key value v tm : List Char}

/-! ### Parameters that do not meet -/

/-- The value of one parameter does not make up another parameter: it does not contain it, does not end within it, and
    where it is put behind the beginning of it, it does not go on with it. -/
def Apart (template key owner value : List Char) : Prop := ∀ x r, interpolate key = x ++ r → x ≠ [] →
  (r = [] → ¬ x <:+: value) ∧
  (r ≠ [] → ¬ x <:+ value ∧ (x ++ interpolate owner <:+: template → ¬ r <+: value ∧ ¬ value <+: r))

theorem apart_iff (tm key o value : List Char) : (∀ i < (interpolate key).length,
    ((interpolate key).drop (i + 1) = [] → ¬ (interpolate key).take (i + 1) <:+: value) ∧
    ((interpolate key).drop (i + 1) ≠ [] → ¬ (interpolate key).take (i + 1) <:+ value ∧
      ((interpolate key).take (i + 1) ++ interpolate o <:+: tm →
        ¬ (interpolate key).drop (i + 1) <+: value ∧ ¬ value <+: (interpolate key).drop (i + 1)))) ↔
    Apart tm key o value := by
  refine ⟨fun h x r hcut hne => ?_, fun h i hi => h _ _ (take_append_drop ..).symm ?_⟩
  · obtain ⟨c, x, rfl⟩ := exists_cons_of_ne_nil hne
    simpa [hcut] using h x.length (by rw [hcut, length_append, length_cons]; omega)
  · simp [interpolate]

instance (template key owner value : List Char) : Decidable (Apart template key owner value) :=
  decidable_of_iff _ (apart_iff template key owner value)

/-- What a text begins with after a replacement stood there before, or its end comes with a value. -/
theorem prefix_replaceBraced {q : List Char} (h : q <+: replaceBraced accept cs) : q <+: cs ∨
    ∃ x r o v, q = x ++ r ∧ r ≠ [] ∧ '\x7d' ∉ o ∧ accept o = some v ∧ x ++ interpolate o <+: cs ∧
      (r <+: v ∨ v <+: r) := by
  induction cs generalizing q with
  | nil => exact .inl h
  | cons c rest ih =>
    cases hat : (bracedAt? (c :: rest)).bind accept with
    | some v =>
      obtain ⟨o, hbr, ha⟩ := Option.bind_eq_some_iff.mp hat
      obtain ⟨hb, post, hc⟩ := eq_of_bracedAt? hbr
      rw [hc, ← interpolate_append] at h ⊢
      rw [replaceBraced_interpolate hb ha] at h
      by_cases hq : q = []
      · exact .inl (hq ▸ nil_prefix)
      · exact .inr ⟨[], q, o, v, rfl, hq, hb, ha, prefix_append _ _, prefix_or_prefix_of_prefix h (prefix_append _ _)⟩
    | none =>
      rw [replaceBraced_cons hat] at h
      cases q with
      | nil => exact .inl nil_prefix
      | cons d q =>
        obtain ⟨rfl, hq⟩ := cons_prefix_cons.mp h
        rcases ih hq with hq | ⟨x, r, o, v, rfl, hr, hb, ha, hx, hm⟩
        · exact .inl (cons_prefix_cons.mpr ⟨rfl, hq⟩)
        · exact .inr ⟨d :: x, r, o, v, rfl, hr, hb, ha, cons_prefix_cons.mpr ⟨rfl, hx⟩, hm⟩

theorem replaceBraced_refused (hk : '$' ∉ key ∧ '\x7d' ∉ key) (hn : accept key = none) (rest : List Char) :
    replaceBraced accept (interpolate key ++ rest) = interpolate key ++ replaceBraced accept rest := by
  have hw : (bracedAt? ('$' :: (('\x7b' :: (key ++ ['\x7d'])) ++ rest))).bind accept = none := by
    rw [show '$' :: (('\x7b' :: (key ++ ['\x7d'])) ++ rest) = '$' :: '\x7b' :: (key ++ '\x7d' :: rest) by simp,
      bracedAt?_append hk.2, Option.bind_some, hn]
  have hta : '$' ∉ '\x7b' :: (key ++ ['\x7d']) := by simpa using hk.1
  have hs : replaceBraced accept (('\x7b' :: (key ++ ['\x7d'])) ++ rest)
      = ('\x7b' :: (key ++ ['\x7d'])) ++ replaceBraced accept rest := by
    refine replaceBraced_skip fun t ht hne => ?_
    cases ha : bracedAt? (t ++ rest) with
    | none => rfl
    | some b =>
      obtain ⟨-, post, hc⟩ := eq_of_bracedAt? ha
      obtain ⟨d, t, rfl⟩ := exists_cons_of_ne_nil hne
      exact absurd (ht.subset mem_cons_self) ((cons.inj hc).1 ▸ hta)
  exact (replaceBraced_cons hw).trans (congrArg ('$' :: ·) hs)

theorem Apart.not_starts {o t rest : List Char} (h : Apart tm key o value) (ht : t <:+ value)
    (hne : t ≠ []) : ¬ interpolate key <+: t ++ rest := by
  intro hp
  have hw : ¬ interpolate key <:+: value := (h (interpolate key) [] (append_nil _).symm (by simp [interpolate])).1 rfl
  rcases prefix_or_prefix_of_prefix hp (prefix_append t rest) with hin | ⟨r, hr⟩
  · exact hw (hin.isInfix.trans ht.isInfix)
  · by_cases hn : r = []
    · rw [hn, append_nil] at hr
      exact hw (hr ▸ ht.isInfix)
    · exact ((h t r hr.symm hne).2 hn).1 ht

theorem replaceAll_replaceBraced (hk : '$' ∉ key ∧ '\x7d' ∉ key) (hnew : accept key = none)
    (hap : ∀ o b, accept o = some b → Apart tm key o b) {cs : List Char}
    (hcs : cs <:+ tm) : replaceAll (interpolate key) v (replaceBraced accept cs)
      = replaceBraced (fun bd => if bd = key then some v else accept bd) cs := by
  induction hn : cs.length using Nat.strong_induction_on generalizing cs with
  | _ n ih =>
  cases cs with
  | nil => rfl
  | cons c rest =>
    cases hat : (bracedAt? (c :: rest)).bind fun bd => if bd = key then some v else accept bd with
    | some new =>
      obtain ⟨bd, hb, ha⟩ := Option.bind_eq_some_iff.mp hat
      obtain ⟨hbr, post, hc⟩ := eq_of_bracedAt? hb
      rw [← interpolate_append] at hc
      have haf := ih post.length (by simp [← hn, hc, interpolate]; omega) ((hc ▸ suffix_append _ _).trans hcs) rfl
      have hri : replaceBraced (fun bd => if bd = key then some v else accept bd) (interpolate bd ++ post)
          = new ++ _ := replaceBraced_interpolate hbr ha post
      rw [hc, hri, ← haf]
      by_cases hbo : bd = key
      · subst hbo
        rw [if_pos rfl, Option.some.injEq] at ha
        rw [replaceBraced_refused hk hnew, replaceAll_piece (by simp [interpolate]), ha]
      · rw [if_neg hbo] at ha
        rw [replaceBraced_interpolate hbr ha]
        exact replaceAll_skip fun t ht hne => (hap bd new ha).not_starts ht hne
    | none =>
      have hre : ∀ bd, bracedAt? (c :: rest) = some bd → bd ≠ key ∧ accept bd = none := by
        intro bd hb
        rw [hb] at hat
        by_cases hbo : bd = key
        · simp [hbo] at hat
        · exact ⟨hbo, by simpa [hbo] using hat⟩
      have hf : (bracedAt? (c :: rest)).bind accept = none := Option.bind_eq_none_iff.mpr fun bd hb => (hre bd hb).2
      have hno : ¬ interpolate key <+: c :: replaceBraced accept rest := by
        rw [← replaceBraced_cons hf]
        intro hp
        rcases prefix_replaceBraced hp with ⟨post, hc⟩ | ⟨x, r, o, b, hx, hr, hbr, ha, hfo, hm⟩
        · rw [interpolate_append] at hc
          exact (hre key (hc ▸ bracedAt?_append hk.2 post)).1 rfl
        · by_cases hni : x = []
          · obtain ⟨post, hc⟩ := hfo
            rw [hni, nil_append, interpolate_append] at hc
            rw [(hre o (hc ▸ bracedAt?_append hbr post)).2] at ha
            cases ha
          · have hg := ((hap o b ha x r hx hni).2 hr).2 (hfo.isInfix.trans hcs.isInfix)
            exact hm.elim hg.1 hg.2
      rw [replaceBraced_cons hat, replaceBraced_cons hf, replaceAll_cons hno,
        ih rest.length (by simp [← hn]) ((suffix_cons c rest).trans hcs) rfl]

/-! ### All parameters -/

/-- The value of the parameter with a name. The empty name names none. -/
def parameterValue? (parameters : OrderedMap String) (name : List Char) : Option (List Char) :=
  if name = [] then none else (parameters.value? (ofList name)).map toList

/-- No value makes up the parameter of another name. -/
structure Independent (parameters : OrderedMap String) (template : List Char) : Prop where
  names : parameters.keys.Nodup
  plain : ∀ a ∈ parameters, '$' ∉ a.1.toList ∧ '\x7d' ∉ a.1.toList
  apart : ∀ a ∈ parameters, ∀ b ∈ parameters, a.1 ≠ "" → b.1 ≠ "" → a.1 ≠ b.1 →
    Apart template a.1.toList b.1.toList b.2.toList

variable {parameters ps others os done rest : OrderedMap String}

theorem Independent.perm (h : Independent parameters tm) (hp : others.Perm parameters) : Independent others tm where
  names := (hp.map Prod.fst).nodup_iff.mpr h.names
  plain a ha := h.plain a (hp.mem_iff.mp ha)
  apart a ha b hb := h.apart a (hp.mem_iff.mp ha) b (hp.mem_iff.mp hb)

theorem parameterValue?_perm (hn : parameters.keys.Nodup) (hp : os.Perm parameters) :
    parameterValue? os = parameterValue? parameters := by
  have hv : ∀ name, os.value? name = parameters.value? name := by
    intro name
    ext v
    rw [value?_eq_some_iff hn, value?_eq_some_iff ((hp.map Prod.fst).nodup_iff.mpr hn), hp.mem_iff]
  funext name
  rw [parameterValue?, parameterValue?, hv]

theorem parameterValue?_new {name : String} (hne : name ∉ parameters.keys) :
    parameterValue? parameters name.toList = none := by
  have hn : parameters.value? name = none := by
    rw [← Option.not_isSome_iff_eq_none, isSome_value?, has_iff]
    exact hne
  simp [parameterValue?, hn]

theorem mem_of_parameterValue? {name value : List Char} (h : parameterValue? parameters name = some value) :
    name ≠ [] ∧ ∃ x ∈ parameters, x.1.toList = name ∧ x.2.toList = value := by
  unfold parameterValue? at h
  split at h
  · cases h
  · next hn =>
    obtain ⟨v, hv, rfl⟩ := Option.map_eq_some_iff.mp h
    exact ⟨hn, _, mem_of_value? hv, String.toList_ofList, rfl⟩

theorem parameterValue?_concat {name v : String} (hnew : name ∉ ps.keys) (hna : name ≠ "") :
    parameterValue? (ps ++ [(name, v)])
      = fun body => if body = name.toList then some v.toList else parameterValue? ps body := by
  funext body
  by_cases hb : body = name.toList
  · have hn := parameterValue?_new hnew
    have hne : name.toList ≠ [] := by simpa using hna
    rw [parameterValue?, if_neg hne, ofList_toList, Option.map_eq_none_iff] at hn
    rw [hb, parameterValue?, if_neg hne, ofList_toList, value?_append, hn]
    simp [value?]
  · have ho : name ≠ ofList body := fun heq => hb (by rw [heq, String.toList_ofList])
    simp [parameterValue?, value?_append, value?, hb, ho]

theorem applyParameters_append (h : Independent (done ++ rest) tm) :
    applyParameters rest (ofList (replaceBraced (parameterValue? done) tm))
      = ofList (replaceBraced (parameterValue? (done ++ rest)) tm) := by
  induction rest generalizing done with
  | nil =>
    rw [append_nil]
    rfl
  | cons x rest ih =>
    obtain ⟨name, v⟩ := x
    have hm : (name, v) ∈ done ++ (name, v) :: rest := mem_append_right _ mem_cons_self
    have hnew : name ∉ done.keys := by
      have hna := h.names
      rw [OrderedMap.keys, map_append] at hna
      exact fun hd => (nodup_append.mp hna).2.2 name hd name mem_cons_self rfl
    have hr := @ih (done ++ [(name, v)]) (by simpa using h)
    rw [append_assoc, singleton_append] at hr
    rw [← hr, applyParameters, foldl_cons, ← applyParameters]
    by_cases hn : name = ""
    · have hs : parameterValue? (done ++ [(name, v)]) = parameterValue? done := by
        funext body
        by_cases hb : body = []
        · simp [parameterValue?, hb]
        · have ho : "" ≠ ofList body := fun heq => hb (by simpa using congrArg toList heq.symm)
          simp [parameterValue?, value?_append, value?, hn, ho]
      simp [hn ▸ hs, hn]
    · have ha : ∀ o other, parameterValue? done o = some other → Apart tm name.toList o other := by
        intro o other how
        obtain ⟨hne, x, he, rfl, rfl⟩ := mem_of_parameterValue? how
        refine h.apart _ hm x (mem_append_left _ he) hn (by simpa using hne) ?_
        rintro rfl
        exact hnew (mem_map_of_mem he)
      rw [parameterValue?_concat hnew hn,
        ← replaceAll_replaceBraced (h.plain _ hm) (parameterValue?_new hnew) ha suffix_rfl]
      simp [hn]

/-- Parameters that are independent are put in at once, in any order. -/
theorem applyParameters_at_once (template : String) (hperm : others.Perm parameters)
    (h : Independent parameters template.toList) : applyParameters others template
      = ofList (replaceBraced (parameterValue? parameters) template.toList) := by
  have hnone : replaceBraced (parameterValue? []) (template.toList ++ []) = template.toList ++ [] :=
    replaceBraced_skip fun t _ _ => Option.bind_eq_none_iff.mpr fun body _ => by simp [parameterValue?, value?]
  have hall : applyParameters others (ofList (replaceBraced (parameterValue? []) template.toList)) = _ :=
    applyParameters_append (h.perm hperm)
  rw [append_nil] at hnone
  rw [hnone, ofList_toList, nil_append, parameterValue?_perm h.names hperm] at hall
  exact hall

theorem applyParameters_at_once_mail :
    Independent [("name", "Ann"), ("total", "$\x7border.total\x7d")] "Dear $\x7bname\x7d: $$\x7btotal\x7d".toList ∧
    applyParameters [("total", "$\x7border.total\x7d"), ("name", "Ann")] "Dear $\x7bname\x7d: $$\x7btotal\x7d"
      = "Dear Ann: $$\x7border.total\x7d" := by
  have h : Independent [("name", "Ann"), ("total", "$\x7border.total\x7d")]
      "Dear $\x7bname\x7d: $$\x7btotal\x7d".toList := ⟨by decide +kernel, by decide +kernel, by decide +kernel⟩
  exact ⟨h, (applyParameters_at_once _ (.swap ..) h).trans (by decide +kernel)⟩

/-- A value with the name of a later parameter is searched again. -/
theorem value_replaced_again : applyParameters [("a", "$\x7bb\x7d"), ("b", "x")] "$\x7ba\x7d" = "x" ∧
    applyParameters [("b", "x"), ("a", "$\x7bb\x7d")] "$\x7ba\x7d" = "$\x7bb\x7d" := by
  decide +kernel

end Bonita

end ProcessForge
