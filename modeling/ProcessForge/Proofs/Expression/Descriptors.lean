import ProcessForge.Proofs.Expression.Marks
import ProcessForge.Proofs.Expression.Placeholders

/-! Marked paths inside of interpolations, in flow conditions and in descriptors. A flow condition loses all marks. A
    descriptor takes all from the first to the last tilde of an interpolation for one marked path, if these stand at
    the braces, and keeps every other interpolation as it is written. Main statement: the two give the same text just
    if each interpolation with a mark is marked as a whole. -/

namespace ProcessForge.Expression

open List
open String (ofList)

/-- The text of an interpolation: what stands in front of the marked paths, and each path with what stands behind
    it. -/
structure Interpolation where
  first : List Char
  marks : List (List Char × List Char)
  first_plain : '~' ∉ first ∧ '\x7d' ∉ first
  marks_plain : ∀ mark ∈ marks, mark.1 ≠ [] ∧ '~' ∉ mark.1 ++ mark.2 ∧ '\x7d' ∉ mark.1 ++ mark.2

namespace Interpolation

/-- What stands between the braces. -/
def body (i : Interpolation) : List Char := i.first ++ i.marks.flatMap fun mark => '~' :: (mark.1 ++ '~' :: mark.2)

def written (i : Interpolation) : List Char := interpolate i.body

/-- Without marks, and with underscores for the dots of marked paths. -/
def flattened (i : Interpolation) : List Char :=
  interpolate (i.first ++ i.marks.flatMap fun mark => underscored mark.1 ++ mark.2)

/-- Has one marked path between its braces, perhaps those of an inner dollar sign and brace. -/
def IsWhole (i : Interpolation) : Prop :=
  i.marks.map Prod.snd = [[]] ∧ ['$', '\x7b'] <:+ '$' :: '\x7b' :: i.first

end Interpolation

/-- What a descriptor makes of an interpolation, from its characters up to the closing brace: where a dollar sign and a
    brace stand before a tilde, and another tilde stands at the end, all between the tildes becomes one path. -/
def resolve : List Char → List Char
  | [] => ['\x7d']
  | c :: cs =>
    match placeholderAt? (c :: cs ++ ['\x7d']) with
    | some path => interpolate (underscored path)
    | none => c :: resolve cs

/-- A text is cut into interpolations and texts without tildes. -/
inductive Piece where
  | plain (cs : List Char) (h : '~' ∉ cs)
  | braced (i : Interpolation)

namespace Piece

def written : Piece → List Char
  | plain cs _ => cs
  | braced i => i.written

def flattened : Piece → List Char
  | plain cs _ => cs
  | braced i => i.flattened

def resolved : Piece → List Char
  | plain cs _ => cs
  | braced i => resolve ('$' :: '\x7b' :: i.body)

end Piece

open Interpolation (body written flattened)

variable {i : Interpolation} {pre b rest cs : List Char} {marks : List (List Char × List Char)}

theorem Interpolation.not_mem_body (i : Interpolation) : '\x7d' ∉ i.body := by
  simp only [body, mem_append, mem_flatMap, mem_cons, not_or, not_exists, not_and]
  refine ⟨i.first_plain.2, fun mark hme => ?_⟩
  have hm := (i.marks_plain mark hme).2.2
  rw [mem_append, not_or] at hm
  exact ⟨by decide, hm.1, by decide, hm.2⟩

/-! ### Flow conditions -/

theorem replaceMarked_marks (f : List Char → List Char) (h : ∀ mark ∈ marks, mark.1 ≠ [] ∧ '~' ∉ mark.1 ++ mark.2)
    (rest : List Char) : replaceMarked f ((marks.flatMap fun mark => '~' :: (mark.1 ++ '~' :: mark.2)) ++ rest)
      = (marks.flatMap fun mark => f mark.1 ++ mark.2) ++ replaceMarked f rest := by
  induction marks with
  | nil => rfl
  | cons mark marks ih =>
    obtain ⟨⟨hn, hp⟩, hm⟩ := forall_mem_cons.mp h
    rw [mem_append, not_or] at hp
    simp only [flatMap_cons, cons_append, append_assoc]
    rw [replaceMarked_marked f hp.1 hn, replaceMarked_append f hp.2, ih hm]

theorem replaceMarked_interpolation (i : Interpolation) (rest : List Char) :
    replaceMarked underscored (i.written ++ rest) = i.flattened ++ replaceMarked underscored rest := by
  have hm := replaceMarked_marks underscored (fun mark hme => (i.marks_plain mark hme).imp_right And.left)
  have ho : '~' ∉ '$' :: '\x7b' :: i.first := by simpa using i.first_plain.1
  have hc : '~' ∉ ['\x7d'] := by decide
  calc replaceMarked underscored (i.written ++ rest)
      = replaceMarked underscored (('$' :: '\x7b' :: i.first)
          ++ ((i.marks.flatMap fun mark => '~' :: (mark.1 ++ '~' :: mark.2)) ++ (['\x7d'] ++ rest))) := by
        rw [written, body, interpolate_append, append_assoc]
        rfl
    _ = i.flattened ++ replaceMarked underscored rest := by
        rw [replaceMarked_append _ ho, hm, replaceMarked_append _ hc, flattened,
          interpolate_append, append_assoc]
        rfl

theorem replaceMarked_pieces (ps : List Piece) :
    replaceMarked underscored (ps.flatMap Piece.written) = ps.flatMap Piece.flattened := by
  induction ps with
  | nil => rfl
  | cons p ps ih =>
    cases p with
    | plain cs h => exact (replaceMarked_append underscored h _).trans (congrArg (cs ++ ·) ih)
    | braced i => exact (replaceMarked_interpolation i _).trans (congrArg (i.flattened ++ ·) ih)

/-! ### Descriptors -/

section

variable (f : List Char → List Char)

theorem replaceWholeMarks_skip (h : ∀ t, t <:+ pre → t ≠ [] → placeholderAt? (t ++ rest) = none) :
    replaceWholeMarks f (pre ++ rest) = pre ++ replaceWholeMarks f rest :=
  replaceBraced_skip fun t ht hn => by rw [bind_wholeMark?_map, h t ht hn, Option.map_none]

/-- A text without tildes, unless it is the beginning of a placeholder. -/
theorem replaceWholeMarks_plain (h : '~' ∉ cs) (hr : ¬ ['~'] <+: rest) (hb : ¬ ['\x7b', '~'] <+: rest) :
    replaceWholeMarks f (cs ++ rest) = cs ++ replaceWholeMarks f rest := by
  refine replaceWholeMarks_skip f fun t ht hn => ?_
  cases ha : placeholderAt? (t ++ rest) with
  | none => rfl
  | some p =>
    obtain ⟨-, post, heq⟩ := eq_of_placeholderAt? ha
    have hti : '~' ∉ t := fun hm => h (ht.subset hm)
    rw [placeholder_append] at heq
    -- the tilde of the placeholder stands behind the text, and so does its brace or the tilde comes first
    rcases t with _ | ⟨_, _ | ⟨_, _ | ⟨_, t⟩⟩⟩
    · exact absurd rfl hn
    · exact absurd (by simp_all) hb
    · exact absurd (by simp_all) hr
    · simp_all

end

/-- A placeholder that begins in front of a closing brace ends with it. -/
theorem placeholderAt?_brace (h : '\x7d' ∉ cs) (rest : List Char) {path : List Char} :
    placeholderAt? (cs ++ '\x7d' :: rest) = some path ↔
      path ≠ [] ∧ cs = '$' :: '\x7b' :: '~' :: (path ++ ['~']) := by
  constructor
  · intro ha
    obtain ⟨hpa, after, heq⟩ := eq_of_placeholderAt? ha
    have hm : '\x7d' ∉ '$' :: '\x7b' :: '~' :: (path ++ ['~']) := by simpa using hpa.2
    have hcu : cs ++ '\x7d' :: rest = ('$' :: '\x7b' :: '~' :: (path ++ ['~'])) ++ '\x7d' :: after := by
      rw [heq, placeholder_append]
      simp
    have hs := Text.splitFirst?_append h rest
    rw [hcu, Text.splitFirst?_append hm after] at hs
    exact ⟨hpa.1, (Prod.mk.inj (Option.some.inj hs)).1.symm⟩
  · rintro ⟨hn, rfl⟩
    have hpa : IsPath path := ⟨hn, fun hm => h (by simp [hm])⟩
    simpa [placeholder_append] using placeholderAt?_placeholder hpa rest

theorem replaceWholeMarks_brace (h : '\x7d' ∉ cs) (rest : List Char) :
    replaceWholeMarks (fun path => interpolate (underscored path)) (cs ++ '\x7d' :: rest)
      = resolve cs ++ replaceWholeMarks (fun path => interpolate (underscored path)) rest := by
  induction cs with
  | nil => exact replaceWholeMarks_of_ne _ (by decide) rest
  | cons c cs ih =>
    rw [resolve]
    split
    · next path ha =>
      obtain ⟨hn, heq⟩ := (placeholderAt?_brace h []).mp ha
      have hpa : IsPath path := ⟨hn, fun hm => h (by rw [heq]; simp [hm])⟩
      rw [heq, ← replaceWholeMarks_placeholder (fun path => interpolate (underscored path)) hpa, placeholder_append]
      simp
    · next ha =>
      have hp : placeholderAt? (c :: (cs ++ '\x7d' :: rest)) = none := by
        refine Option.eq_none_iff_forall_ne_some.mpr fun path hp => ?_
        have hs := (placeholderAt?_brace h []).mpr ((placeholderAt?_brace h rest).mp hp)
        rw [ha] at hs
        cases hs
      rw [cons_append, replaceWholeMarks_cons _ hp, ih fun hm => h (mem_cons_of_mem c hm), cons_append]

theorem pieces_begin (ps : List Piece) : ¬ ['~'] <+: ps.flatMap Piece.written ∧
    ¬ ['\x7b', '~'] <+: ps.flatMap Piece.written := by
  induction ps with
  | nil => simp
  | cons p ps ih =>
    rw [flatMap_cons]
    cases p with
    | braced i =>
      rw [Piece.written, written, interpolate_append]
      simp
    | plain cs h =>
      rw [Piece.written]
      rcases cs with _ | ⟨c, cs⟩
      · exact ih
      · have hc : c ≠ '~' := fun heq => h (heq ▸ mem_cons_self)
        refine ⟨by simpa using hc.symm, fun hb => ?_⟩
        obtain ⟨-, hn⟩ := cons_prefix_cons.mp hb
        rcases cs with _ | ⟨d, cs⟩
        · exact ih.1 hn
        · exact h (by simp_all)

theorem replaceWholeMarks_pieces (ps : List Piece) :
    replaceWholeMarks (fun p => interpolate (underscored p)) (ps.flatMap Piece.written)
      = ps.flatMap Piece.resolved := by
  induction ps with
  | nil => rfl
  | cons pc ps ih =>
    obtain ⟨hh, hb⟩ := pieces_begin ps
    rw [flatMap_cons, flatMap_cons, ← ih]
    cases pc with
    | plain cs hp => exact replaceWholeMarks_plain _ hp hh hb
    | braced i =>
      have hn : '\x7d' ∉ '$' :: '\x7b' :: i.body := by simpa using i.not_mem_body
      rw [Piece.written, written, interpolate_append]
      exact replaceWholeMarks_brace hn _

/-! ### Both -/

theorem length_written (i : Interpolation) : i.written.length = i.flattened.length + 2 * i.marks.length := by
  have hm : ∀ marks : List (List Char × List Char), (marks.flatMap fun mark => '~' :: (mark.1 ++ '~' :: mark.2)).length
        = (marks.flatMap fun mark => underscored mark.1 ++ mark.2).length + 2 * marks.length := by
    intro marks
    induction marks with
    | nil => rfl
    | cons mark marks ih =>
      simp only [flatMap_cons, length_append, length_cons, ih, underscored, Text.swapChar, length_map]
      omega
  simp only [written, body, flattened, interpolate, length_append,
    length_cons, hm]
  omega

/-- Either nothing is resolved, or a path at the end. -/
theorem resolve_cases (h : '\x7d' ∉ cs) :
    resolve cs = cs ++ ['\x7d'] ∧ (∀ pre path, path ≠ [] → cs ≠ pre ++ '$' :: '\x7b' :: '~' :: (path ++ ['~'])) ∨
    ∃ pre path, cs = pre ++ '$' :: '\x7b' :: '~' :: (path ++ ['~']) ∧
      resolve cs = pre ++ interpolate (underscored path) := by
  induction cs with
  | nil => exact .inl ⟨rfl, by simp⟩
  | cons c cs ih =>
    rw [resolve]
    split
    · next path ha => exact .inr ⟨[], path, ((placeholderAt?_brace h []).mp ha).2, rfl⟩
    · next ha =>
      rcases ih fun hm => h (mem_cons_of_mem c hm) with ⟨hi, hs⟩ | ⟨pre, path, hc, hr⟩
      · refine .inl ⟨by rw [hi, cons_append], fun pre path hn heq => ?_⟩
        rcases pre with _ | ⟨d, pre⟩
        · rw [(placeholderAt?_brace h []).mpr ⟨hn, heq⟩] at ha
          cases ha
        · exact hs pre path hn (cons.inj heq).2
      · exact .inr ⟨c :: pre, path, by rw [hc, cons_append], by rw [hr, cons_append]⟩

/-- Of one mark, no other path can be resolved than its own. -/
theorem eq_of_one_mark {path p q : List Char} (hm : i.marks = [(p, q)])
    (h : '$' :: '\x7b' :: i.body = pre ++ '$' :: '\x7b' :: '~' :: (path ++ ['~'])) :
    '$' :: '\x7b' :: i.first = pre ++ ['$', '\x7b'] ∧ path = p ∧ q = [] := by
  have hb : i.body = i.first ++ '~' :: (p ++ '~' :: q) := by simp [body, hm]
  have hpq := (i.marks_plain (p, q) (hm ▸ mem_singleton_self _)).2.1
  rw [mem_append, not_or] at hpq
  -- there are no more than two tildes
  have hcount := congrArg (count '~') h
  simp only [hb, count_cons, count_append, count_eq_zero.mpr i.first_plain.1, count_eq_zero.mpr hpq.1,
    count_eq_zero.mpr hpq.2, count_nil] at hcount
  simp at hcount
  have hpre : '~' ∉ pre ++ ['$', '\x7b'] := by
    simp [← count_eq_zero (a := '~') (l := pre)]
    omega
  have hpath : '~' ∉ path := by
    rw [← count_eq_zero]
    omega
  have hfirst : '~' ∉ '$' :: '\x7b' :: i.first := by simpa using i.first_plain.1
  have hs := Text.splitFirst?_append hfirst (p ++ '~' :: q)
  have hcut : '$' :: '\x7b' :: i.first ++ '~' :: (p ++ '~' :: q) =
      (pre ++ ['$', '\x7b']) ++ '~' :: (path ++ ['~']) := by
    simpa [hb] using h
  rw [hcut, Text.splitFirst?_append hpre] at hs
  obtain ⟨hf, hr⟩ := Prod.mk.inj (Option.some.inj hs)
  have ht := Text.splitFirst?_append hpq.1 q
  rw [← hr, Text.splitFirst?_append hpath] at ht
  obtain ⟨rfl, rfl⟩ := Prod.mk.inj (Option.some.inj ht)
  exact ⟨hf.symm, rfl, rfl⟩

/-- The marks of an interpolation make a difference unless it is whole. -/
theorem resolved_cases (i : Interpolation) :
    (i.marks = [] ∨ i.IsWhole) ∧ (Piece.braced i).resolved = (Piece.braced i).flattened ∨
    ¬ (i.marks = [] ∨ i.IsWhole) ∧ (Piece.braced i).flattened.length < (Piece.braced i).resolved.length := by
  have hn : '\x7d' ∉ '$' :: '\x7b' :: i.body := by simpa using i.not_mem_body
  have hl := length_written i
  simp only [Piece.resolved, Piece.flattened]
  rcases resolve_cases hn with ⟨hr, hs⟩ | ⟨pre, path, hs, hr⟩
  · have hw : resolve ('$' :: '\x7b' :: i.body) = i.written := hr
    rw [hw]
    by_cases hm : i.marks = []
    · refine .inl ⟨.inl hm, ?_⟩
      simp [written, body, flattened, hm]
    · refine .inr ⟨not_or.mpr ⟨hm, ?_⟩, ?_⟩
      · rintro ⟨hma, pre, hp⟩
        obtain ⟨⟨p, q⟩, hmark, rfl : q = []⟩ := map_eq_singleton_iff.mp hma
        refine hs pre p (i.marks_plain (p, []) (hmark ▸ mem_singleton_self _)).1 ?_
        rw [body, hmark, ← cons_append, ← cons_append, ← hp]
        simp
      · have hp := length_pos_iff.mpr hm
        omega
  · rcases hm : i.marks with _ | ⟨⟨p, q⟩, _ | ⟨mark, marks⟩⟩
    · have ht := i.first_plain.1
      have hb : i.body = i.first := by simp [body, hm]
      have hmem : '~' ∈ '$' :: '\x7b' :: i.body := by rw [hs]; simp
      simp [hb, ht] at hmem
    · obtain ⟨hf, rfl, rfl⟩ := eq_of_one_mark hm hs
      refine .inl ⟨.inr ⟨by rw [hm]; rfl, pre, hf.symm⟩, ?_⟩
      have hi : i.flattened = ('$' :: '\x7b' :: i.first) ++ (underscored path ++ ['\x7d']) := by
        simp [flattened, interpolate, hm]
      rw [hr, hi, hf]
      simp [interpolate]
    · refine .inr ⟨fun ho => ?_, ?_⟩
      · rcases ho with ho | ho
        · cases ho
        · have hma := ho.1
          rw [hm] at hma
          cases hma
      · have hlen := congrArg length hs
        rw [hr]
        rw [hm] at hl
        simp only [written, interpolate, length_append, length_cons, length_nil, underscored,
          Text.swapChar, length_map] at hl hlen ⊢
        omega

theorem length_flattened_le (p : Piece) : p.flattened.length ≤ p.resolved.length := by
  cases p with
  | plain => exact Nat.le_refl _
  | braced i =>
    rcases resolved_cases i with ⟨-, heq⟩ | ⟨-, hl⟩
    · exact Nat.le_of_eq (congrArg length heq.symm)
    · exact Nat.le_of_lt hl

theorem length_flatMap_flattened_le (ps : List Piece) :
    (ps.flatMap Piece.flattened).length ≤ (ps.flatMap Piece.resolved).length := by
  induction ps with
  | nil => exact Nat.le_refl _
  | cons p ps ih =>
    rw [flatMap_cons, flatMap_cons, length_append, length_append]
    exact Nat.add_le_add (length_flattened_le p) ih

theorem flatMap_resolved_eq_iff (ps : List Piece) : ps.flatMap Piece.resolved = ps.flatMap Piece.flattened ↔
    ∀ p ∈ ps, p.resolved = p.flattened := by
  induction ps with
  | nil => simp
  | cons p ps ih =>
    rw [flatMap_cons, flatMap_cons, forall_mem_cons, ← ih]
    refine ⟨fun h => ?_, fun ⟨hpi, hp⟩ => by rw [hpi, hp]⟩
    have hl := congrArg length h
    have hpi := length_flattened_le p
    have hp := length_flatMap_flattened_le ps
    rw [length_append, length_append] at hl
    exact append_inj h (by omega)

/-- Flow conditions lose all marks and descriptors the whole ones. -/
theorem descriptor_eq_condition_iff (pieces : List Piece) :
    flattenCamunda (ofList (pieces.flatMap Piece.written)) = ofList (pieces.flatMap Piece.flattened) ∧
    camundaDescriptorText (ofList (pieces.flatMap Piece.written)) = ofList (pieces.flatMap Piece.resolved) ∧
    (camundaDescriptorText (ofList (pieces.flatMap Piece.written))
        = flattenCamunda (ofList (pieces.flatMap Piece.written)) ↔
      ∀ i, .braced i ∈ pieces → i.marks = [] ∨ i.IsWhole) := by
  have hcondition := (flattenCamunda_eq (ofList (pieces.flatMap Piece.written))).trans
    (by rw [String.toList_ofList, replaceMarked_pieces])
  have hdescriptor : camundaDescriptorText (ofList (pieces.flatMap Piece.written))
      = ofList (pieces.flatMap Piece.resolved) := by
    rw [camundaDescriptorText, String.toList_ofList, replaceWholeMarks_pieces]
  refine ⟨hcondition, hdescriptor, ?_⟩
  rw [hcondition, hdescriptor, String.ofList_inj, flatMap_resolved_eq_iff]
  constructor
  · intro heq i hmem
    rcases resolved_cases i with ⟨hwhole, -⟩ | ⟨-, hlt⟩
    · exact hwhole
    · exact absurd (congrArg length (heq _ hmem)) (Nat.ne_of_gt hlt)
  · intro hwhole piece hmem
    cases piece with
    | plain => rfl
    | braced i =>
      rcases resolved_cases i with ⟨-, heq⟩ | ⟨hnot, -⟩
      · exact heq
      · exact absurd (hwhole i hmem) hnot

/-- A mark with other text beside it is kept in a descriptor, and of two marks at the braces one half each. -/
theorem descriptor_keeps_inner_marks :
    camundaDescriptorText "$\x7b~request.amount~ > 1000\x7d" = "$\x7b~request.amount~ > 1000\x7d" ∧
    flattenCamunda "$\x7b~request.amount~ > 1000\x7d" = "$\x7brequest_amount > 1000\x7d" ∧
    camundaDescriptorText "$\x7b~request.amount~ > ~order.limit~\x7d" = "$\x7brequest_amount~ > ~order_limit\x7d" ∧
    flattenCamunda "$\x7b~request.amount~ > ~order.limit~\x7d" = "$\x7brequest_amount > order_limit\x7d" := by
  decide +kernel

end ProcessForge.Expression
