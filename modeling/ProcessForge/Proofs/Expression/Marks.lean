import ProcessForge.Expression.Dialect
import ProcessForge.Proofs.Text.Trim

/-! Marks of authored expressions through both stages: global variables are put in, and what is left is flattened.
    A text is cut at its tildes. Segments at even places stand outside of marks, those at odd places inside of
    them, but for a last segment at an odd place, whose mark is not closed. Main statement: the two stages work
    segment by segment. No value that is put in pairs up tildes anew or loses its dots, and flattening the
    result once more changes nothing. -/

namespace ProcessForge.Expression

open List Text
open String (ofList toList_ofList)

/-! ### Segments -/

/-- What becomes of a marked segment: the value of the variable with this path, or the path with underscores
    for its dots. -/
def markedResult (globals : OrderedMap String) (segment : List Char) : List Char :=
  match globals.find? fun entry => globalLead ++ entry.1.toList == trimChars segment with
  | some entry => entry.2.toList
  | none => segment.map fun c => if c = '.' then '_' else c

/-- What becomes of the segment at a place, if there are `count` segments. -/
def segmentResult (globals : OrderedMap String) (count place : Nat) (segment : List Char) : List Char :=
  if place % 2 = 0 then segment
  else if place + 1 < count then markedResult globals segment
  else '~' :: segment

/-- What becomes of a text, by its segments. -/
def segmentsResult (globals : OrderedMap String) (segments : List (List Char)) : List Char :=
  (segments.mapIdx (segmentResult globals segments.length)).flatten

variable (globals gs : OrderedMap String)

theorem segmentsResult_single (s : List Char) : segmentsResult globals [s] = s := by
  simp [segmentsResult, segmentResult]

theorem segmentsResult_pair (s t : List Char) : segmentsResult globals [s, t] = s ++ '~' :: t := by
  simp [segmentsResult, segmentResult]

variable {rest tl : List (List Char)}

theorem segmentsResult_cons (s t : List Char) (h : rest ≠ []) : segmentsResult globals (s :: t :: rest)
      = s ++ markedResult globals t ++ segmentsResult globals rest := by
  have hp := length_pos_iff.mpr h
  have hs : (fun i => segmentResult globals (rest.length + 2) (i + 2)) = segmentResult globals rest.length := by
    funext i segment
    simp [segmentResult, show i + 2 + 1 < rest.length + 2 ↔ i + 1 < rest.length by omega]
  simp only [segmentsResult, length_cons, mapIdx_cons, flatten_cons]
  rw [show (fun i => segmentResult globals (rest.length + 1 + 1) (i + 1 + 1))
    = segmentResult globals rest.length from hs]
  simp [segmentResult, hp]

theorem intercalate_cons (s : List Char) (h : rest ≠ []) :
    ['~'].intercalate (s :: rest) = s ++ '~' :: ['~'].intercalate rest := by
  obtain ⟨t, rest, rfl⟩ := exists_cons_of_ne_nil h
  simp [intercalate]

theorem ne_nil_of_not_infix {s t : List Char} (hr : rest ≠ [])
    (h : ¬['~', '~'] <:+: ['~'].intercalate (s :: t :: rest)) : t ≠ [] ∧ ¬['~', '~'] <:+: ['~'].intercalate rest := by
  rw [intercalate_cons s (by simp), intercalate_cons t hr] at h
  refine ⟨?_, fun hp => h (hp.trans ⟨s ++ '~' :: t ++ ['~'], [], by simp⟩)⟩
  rintro rfl
  exact h ⟨s, ['~'].intercalate rest, by simp⟩

/-! ### One stage -/

section

variable (f : List Char → List Char)

theorem replaceMarked_append {pre : List Char} (h : '~' ∉ pre) (cs : List Char) :
    replaceMarked f (pre ++ cs) = pre ++ replaceMarked f cs := by
  obtain ⟨p, ps, hs⟩ := exists_cons_of_ne_nil (splitAtChar_ne_nil '~' cs)
  simp [replaceMarked, splitAtChar_append_left h hs, hs]

theorem replaceMarked_of_not_mem {cs : List Char} (h : '~' ∉ cs) : replaceMarked f cs = cs := by
  simpa [replaceMarked, splitAtChar, replacePieces] using replaceMarked_append f h []

theorem replaceMarked_open {last : List Char} (h : '~' ∉ last) : replaceMarked f ('~' :: last) = '~' :: last := by
  simp [replaceMarked, splitAtChar, splitAtChar_of_not_mem h, replacePieces]

theorem replaceMarked_marked {b : List Char} (h : '~' ∉ b) (hn : b ≠ []) (cs : List Char) :
    replaceMarked f ('~' :: (b ++ '~' :: cs)) = f b ++ replaceMarked f cs := by
  obtain ⟨p, pieces, hs⟩ := exists_cons_of_ne_nil (splitAtChar_ne_nil '~' cs)
  have hsp : splitAtChar '~' ('~' :: (b ++ '~' :: cs)) = [] :: b :: p :: pieces := by
    rw [← hs, ← splitAtChar_append_separator cs h]
    exact splitAtChar_append_separator _ (not_mem_nil : '~' ∉ [])
  simp [replaceMarked, hsp, hs, replacePieces, hn]

end

/-! ### Both stages -/

/-- The variable that a path names behind a lead is the first one that makes up the path. -/
theorem value?_dropPrefix? (lead p : List Char) : ((Text.dropPrefix? lead p).bind fun name => gs.value? (ofList name))
      = (gs.find? fun x => lead ++ x.1.toList == p).map Prod.snd := by
  cases hn : Text.dropPrefix? lead p with
  | none =>
    rw [find?_eq_none.mpr]
    · rfl
    · intro x _ heq
      rw [← beq_iff_eq.mp heq, dropPrefix?_append] at hn
      cases hn
  | some name =>
    rw [eq_append_of_dropPrefix? hn]
    induction gs with
    | nil => rfl
    | cons x tl ih =>
      obtain ⟨key, v⟩ := x
      by_cases hk : key = ofList name
      · simp [OrderedMap.value?, hk]
      · have hne : key.toList ≠ name := fun heq => hk (by rw [← heq, String.ofList_toList])
        simpa [OrderedMap.value?, hk, hne] using ih

def substitutedMark (body : List Char) : List Char :=
  match globalValue? globals body with
  | some value => value.toList
  | none => '~' :: body ++ ['~']

theorem flatten_substitutedMark (hv : ∀ x ∈ gs, '~' ∉ x.2.toList) {b : List Char}
    (h : '~' ∉ b) (hn : b ≠ []) (cs : List Char) : replaceMarked underscored (substitutedMark gs b ++ cs)
      = markedResult gs b ++ replaceMarked underscored cs := by
  rw [substitutedMark, globalValue?, value?_dropPrefix?, markedResult]
  cases hf : gs.find? fun x => globalLead ++ x.1.toList == trimChars b with
  | some x => exact replaceMarked_append _ (hv x (mem_of_find?_eq_some hf)) cs
  | none =>
    have hm : underscored b = b.map fun c => if c = '.' then '_' else c := by
      simp [underscored, swapChar]
    simpa [hm] using replaceMarked_marked underscored h hn cs

/-- Both stages, segment by segment. The induction takes two segments at a time: one outside and one inside of
    a mark. -/
theorem flatten_replaceMarked (hva : ∀ x ∈ gs, '~' ∉ x.2.toList) :
    ∀ {ss : List (List Char)}, ss ≠ [] → (∀ s ∈ ss, '~' ∉ s) →
    ¬['~', '~'] <:+: ['~'].intercalate ss →
    replaceMarked underscored (replaceMarked (substitutedMark gs) (['~'].intercalate ss)) = segmentsResult gs ss
  | [], hn, _, _ => absurd rfl hn
  | [s], _, hp, _ => by
    have hs : '~' ∉ s := hp s (by simp)
    simp [intercalate, replaceMarked_of_not_mem _ hs, segmentsResult_single]
  | [s, t], _, hp, _ => by
    have hs : '~' ∉ s := hp s (by simp)
    have ht : '~' ∉ t := hp t (by simp)
    simp [intercalate, replaceMarked_append _ hs, replaceMarked_open _ ht, segmentsResult_pair]
  | s :: t :: u :: tl, _, hp, ha => by
    have hs : '~' ∉ s := hp s (by simp)
    have ht : '~' ∉ t := hp t (by simp)
    obtain ⟨hn, ha⟩ := ne_nil_of_not_infix (by simp) ha
    have ih := flatten_replaceMarked hva (cons_ne_nil u tl) (fun v hv => hp v (by simp_all)) ha
    rw [intercalate_cons s (by simp), intercalate_cons t (by simp), replaceMarked_append _ hs,
      replaceMarked_marked _ ht hn, replaceMarked_append _ hs,
      flatten_substitutedMark gs hva ht hn, ih, segmentsResult_cons gs s t (by simp),
      append_assoc]

/-! ### What is left to mark -/

theorem markedResult_plain (hv : ∀ x ∈ globals, '~' ∉ x.2.toList) {segment : List Char}
    (h : '~' ∉ segment) : '~' ∉ markedResult globals segment := by
  rw [markedResult]
  split
  · next x hf => exact hv x (mem_of_find?_eq_some hf)
  · intro hm
    obtain ⟨c, hc, heq⟩ := mem_map.mp hm
    split at heq
    · exact absurd heq (by decide)
    · exact h (heq ▸ hc)

/-- At most one tilde is left, so nothing is marked any more. -/
theorem replaceMarked_segmentsResult (hva : ∀ x ∈ gs, '~' ∉ x.2.toList)
    (f : List Char → List Char) : ∀ {ss : List (List Char)}, ss ≠ [] →
    (∀ s ∈ ss, '~' ∉ s) →
    replaceMarked f (segmentsResult gs ss) = segmentsResult gs ss
  | [], hn, _ => absurd rfl hn
  | [s], _, hp => by
    rw [segmentsResult_single]
    exact replaceMarked_of_not_mem f (hp s (by simp))
  | [s, t], _, hp => by
    rw [segmentsResult_pair, replaceMarked_append f (hp s (by simp)), replaceMarked_open f (hp t (by simp))]
  | s :: t :: u :: tl, _, hp => by
    have hf : '~' ∉ s ++ markedResult gs t := by
      rw [mem_append, not_or]
      exact ⟨hp s (by simp), markedResult_plain gs hva (hp t (by simp))⟩
    rw [segmentsResult_cons gs s t (by simp), replaceMarked_append f hf,
      replaceMarked_segmentsResult hva f (cons_ne_nil u tl) (fun v hv => hp v (by simp_all))]

/-- Blank texts have no marks, so they need no exception. -/
theorem flattenCamunda_eq (s : String) : flattenCamunda s = ofList (replaceMarked underscored s.toList) := by
  rw [flattenCamunda]
  split
  · next hb =>
    rw [replaceMarked_of_not_mem, String.ofList_toList]
    intro hm
    exact absurd (all_eq_true.mp hb _ hm) (by decide)
  · rfl

/-- The two stages compose mark by mark. Take a text without adjacent tildes by its segments between the
    tildes, and variables whose values have no tilde. Then segments at even places are kept, a segment at an
    odd place with a tilde behind it becomes the value of the variable that it names or else its path with
    underscores for dots, and a last segment at an odd place keeps its tilde. Flattening the result once more
    changes nothing. -/
theorem flattenCamunda_substituteGlobals (hvalues : ∀ entry ∈ globals, '~' ∉ entry.2.toList)
    {segments : List (List Char)} (hne : segments ≠ []) (hplain : ∀ s ∈ segments, '~' ∉ s)
    (hadjacent : ¬['~', '~'] <:+: ['~'].intercalate segments) :
    flattenCamunda (substituteGlobals globals (ofList (['~'].intercalate segments)))
      = ofList (segmentsResult globals segments) ∧ flattenCamunda (ofList (segmentsResult globals segments))
      = ofList (segmentsResult globals segments) := by
  have hstage : substituteGlobals globals (ofList (['~'].intercalate segments))
      = ofList (replaceMarked (substitutedMark globals) (['~'].intercalate segments)) := by
    rw [substituteGlobals, toList_ofList]
    rfl
  rw [hstage, flattenCamunda_eq, flattenCamunda_eq, toList_ofList, toList_ofList,
    flatten_replaceMarked globals hvalues hne hplain hadjacent,
    replaceMarked_segmentsResult globals hvalues underscored hne hplain]
  exact ⟨rfl, rfl⟩

theorem flattenCamunda_substituteGlobals_sample : flattenCamunda (substituteGlobals [("limit", "1.5")]
        "~order.total~ > ~ globalVariables.limit ~ && ~globalVariables.rate~ ~open.end")
      = "order_total > 1.5 && globalVariables_rate ~open.end" := by
  have hne : ["", "order.total", " > ", " globalVariables.limit ", " && ", "globalVariables.rate", " ",
      "open.end"].map String.toList ≠ [] := by decide
  have h := (flattenCamunda_substituteGlobals [("limit", "1.5")] (by decide) hne (by decide +kernel)
    (by decide +kernel)).1
  exact h.trans (by decide +kernel)

end ProcessForge.Expression
