import ProcessForge.Expression.Dialect
import Mathlib.Data.List.TakeWhile

/-! Interpolations that are marked as a whole. A text is cut from left to right into such placeholders and single
    characters between them, and a replacement works on the pieces one by one. -/

namespace ProcessForge.Expression

open List Option

variable {b cs path p : List Char} {c : Char}

/-- The path of a placeholder with which the characters begin. -/
def placeholderAt? (cs : List Char) : Option (List Char) := (bracedAt? cs).bind wholeMark?

def IsPath (path : List Char) : Prop := path ≠ [] ∧ '\x7d' ∉ path

def placeholder (path : List Char) : List Char := interpolate ('~' :: path ++ ['~'])

/-- The paths of placeholders. Characters of one that was just found are passed over. -/
def placeholdersFrom : Nat → List Char → List (List Char)
  | _, [] => []
  | skip + 1, _ :: rest => placeholdersFrom skip rest
  | 0, c :: rest =>
    match placeholderAt? (c :: rest) with
    | none => placeholdersFrom 0 rest
    | some path => path :: placeholdersFrom (path.length + 4) rest

/-- The paths of the placeholders of a text, from left to right. -/
def placeholders (cs : List Char) : List (List Char) := placeholdersFrom 0 cs

/-! ### One placeholder -/

theorem placeholder_append (p tl : List Char) :
    placeholder p ++ tl = '$' :: '\x7b' :: '~' :: (p ++ '~' :: '\x7d' :: tl) := by
  simp [placeholder, interpolate]

theorem interpolate_append (b tl : List Char) : interpolate b ++ tl = '$' :: '\x7b' :: (b ++ '\x7d' :: tl) := by
  simp [interpolate]

theorem bracedAt?_append (h : '\x7d' ∉ body) (tl : List Char) :
    bracedAt? ('$' :: '\x7b' :: (body ++ '\x7d' :: tl)) = some body := by
  have hb : ∀ c ∈ body, (c != '\x7d') := fun c hc => bne_iff_ne.mpr fun heq => h (heq ▸ hc)
  have ht : (body ++ '\x7d' :: tl).takeWhile (· != '\x7d') = body := by
    rw [takeWhile_append_of_pos hb]
    simp
  simp [bracedAt?, ht]

theorem eq_of_bracedAt? (h : bracedAt? cs = some b) : '\x7d' ∉ b ∧ ∃ tl, cs = '$' :: '\x7b' :: (b ++ '\x7d' :: tl) := by
  unfold bracedAt? at h
  split at h
  · next t =>
    dsimp only at h
    split at h
    · next hl =>
      obtain rfl := some.inj h
      have hs := (takeWhile_append_dropWhile (p := (· != '\x7d')) (l := t)).symm
      refine ⟨fun hm => by simpa using mem_takeWhile_imp hm, ?_⟩
      cases ha : t.dropWhile (· != '\x7d') with
      | nil =>
        rw [ha, append_nil] at hs
        rw [← hs] at hl
        exact absurd hl (Nat.lt_irrefl _)
      | cons c tl =>
        have hc : c = '\x7d' := by
          have hh := head_dropWhile_not (· != '\x7d') (l := t) (by simp [ha])
          simpa [ha] using hh
        rw [ha, hc] at hs
        exact ⟨tl, congrArg ('$' :: '\x7b' :: ·) hs⟩
    · cases h
  · cases h

theorem wholeMark?_append (h : path ≠ []) : wholeMark? ('~' :: path ++ ['~']) = some path := by
  have hl : 2 ≤ (path ++ ['~']).length := by
    have := length_pos_iff.mpr h
    simp
    omega
  simp only [wholeMark?, cons_append, getLast?_append, getLast?_singleton, some_or, dropLast_concat, if_pos hl]

theorem eq_of_wholeMark? (h : wholeMark? b = some path) : path ≠ [] ∧ b = '~' :: path ++ ['~'] := by
  unfold wholeMark? at h
  split at h
  · next tl =>
    split at h
    · next hl =>
      obtain ⟨pre, rfl⟩ := getLast?_eq_some_iff.mp hl
      split at h
      · next hle =>
        obtain rfl : pre = path := by simpa using h
        refine ⟨?_, rfl⟩
        rintro rfl
        simp at hle
      · cases h
    · cases h
  · cases h

theorem placeholderAt?_placeholder (h : IsPath path) (tl : List Char) :
    placeholderAt? (placeholder path ++ tl) = some path := by
  have hb : '\x7d' ∉ '~' :: path ++ ['~'] := by simpa using h.2
  rw [placeholderAt?, placeholder, interpolate_append, bracedAt?_append hb]
  exact wholeMark?_append h.1

theorem eq_of_placeholderAt? (h : placeholderAt? cs = some p) :
    IsPath p ∧ ∃ rest, cs = placeholder p ++ rest := by
  obtain ⟨b, hbo, hp⟩ := bind_eq_some_iff.mp h
  obtain ⟨hb, rest, rfl⟩ := eq_of_bracedAt? hbo
  obtain ⟨hn, rfl⟩ := eq_of_wholeMark? hp
  refine ⟨⟨hn, fun hm => hb (by simp [hm])⟩, rest, ?_⟩
  simp [placeholder, interpolate]

theorem placeholderAt?_of_ne (h : c ≠ '$') (tl : List Char) : placeholderAt? (c :: tl) = none := by
  cases hp : placeholderAt? (c :: tl) with
  | none => rfl
  | some p =>
    obtain ⟨-, post, heq⟩ := eq_of_placeholderAt? hp
    exact absurd (cons.inj heq).1 h

/-! ### All placeholders of a text -/

/-- A text is empty, or begins with a placeholder, or with a character that belongs to none. -/
theorem placeholder_cases (cs : List Char) : cs = [] ∨ (∃ p tl, IsPath p ∧ cs = placeholder p ++ tl) ∨
      ∃ c tl, cs = c :: tl ∧ placeholderAt? (c :: tl) = none := by
  cases cs with
  | nil => exact Or.inl rfl
  | cons c tl =>
    cases hp : placeholderAt? (c :: tl) with
    | none => exact Or.inr (Or.inr ⟨c, tl, rfl, hp⟩)
    | some p =>
      obtain ⟨hpa, post, heq⟩ := eq_of_placeholderAt? hp
      exact Or.inr (Or.inl ⟨p, post, hpa, heq⟩)

theorem replaceBracedFrom_eq (accept : List Char → Option (List Char)) (skip : Nat) (cs : List Char) :
    replaceBracedFrom accept skip cs = replaceBracedFrom accept 0 (cs.drop skip) := by
  induction skip generalizing cs with
  | zero => rfl
  | succ skip ih =>
    cases cs with
    | nil => simp [replaceBracedFrom]
    | cons c tl => rw [replaceBracedFrom, ih tl, drop_succ_cons]

theorem placeholdersFrom_eq (skip : Nat) (cs : List Char) : placeholdersFrom skip cs = placeholders (cs.drop skip) := by
  induction skip generalizing cs with
  | zero => rfl
  | succ skip ih =>
    cases cs with
    | nil => simp [placeholdersFrom, placeholders]
    | cons c tl => rw [placeholdersFrom, ih tl, drop_succ_cons]

section

variable {accept : List Char → Option (List Char)}

theorem replaceBraced_cons {rest : List Char} (h : (bracedAt? (c :: rest)).bind accept = none) :
    replaceBraced accept (c :: rest) = c :: replaceBraced accept rest := by
  rw [replaceBraced, replaceBracedFrom]
  cases hb : bracedAt? (c :: rest) with
  | none => rfl
  | some b =>
    rw [hb, bind_some] at h
    simp only [h]
    rfl

theorem replaceBraced_interpolate {new : List Char} (hb : '\x7d' ∉ b) (ha : accept b = some new)
    (rest : List Char) : replaceBraced accept (interpolate b ++ rest) = new ++ replaceBraced accept rest := by
  have hd : ('\x7b' :: (b ++ '\x7d' :: rest)).drop (b.length + 2) = rest := by simp
  rw [interpolate_append, replaceBraced, replaceBracedFrom, bracedAt?_append hb]
  simp only [ha]
  rw [replaceBracedFrom_eq, hd]
  rfl

theorem replaceBraced_skip {pre rest : List Char}
    (h : ∀ t, t <:+ pre → t ≠ [] → (bracedAt? (t ++ rest)).bind accept = none) :
    replaceBraced accept (pre ++ rest) = pre ++ replaceBraced accept rest := by
  induction pre with
  | nil => rfl
  | cons c pre ih =>
    have hn : (bracedAt? (c :: (pre ++ rest))).bind accept = none := h (c :: pre) suffix_rfl (cons_ne_nil _ _)
    rw [cons_append, replaceBraced_cons hn, ih fun t ht => h t (ht.trans (suffix_cons c pre)), cons_append]

end

variable (f : List Char → List Char)

@[simp] theorem replaceWholeMarks_nil : replaceWholeMarks f [] = [] := rfl

theorem bind_wholeMark?_map (cs : List Char) :
    (bracedAt? cs).bind (fun b => (wholeMark? b).map f) = (placeholderAt? cs).map f := by
  rw [placeholderAt?, Option.map_bind]
  rfl

theorem replaceWholeMarks_cons {rest : List Char} (h : placeholderAt? (c :: rest) = none) :
    replaceWholeMarks f (c :: rest) = c :: replaceWholeMarks f rest :=
  replaceBraced_cons (by rw [bind_wholeMark?_map, h, map_none])

theorem replaceWholeMarks_of_ne (h : c ≠ '$') (rest : List Char) :
    replaceWholeMarks f (c :: rest) = c :: replaceWholeMarks f rest :=
  replaceWholeMarks_cons f (placeholderAt?_of_ne h rest)

theorem replaceWholeMarks_append {pre : List Char} (h : '$' ∉ pre) (rest : List Char) :
    replaceWholeMarks f (pre ++ rest) = pre ++ replaceWholeMarks f rest := by
  induction pre with
  | nil => rfl
  | cons c pre ih =>
    rw [mem_cons, not_or] at h
    rw [cons_append, replaceWholeMarks_of_ne f (Ne.symm h.1), ih h.2, cons_append]

theorem replaceWholeMarks_placeholder (h : IsPath p) (rest : List Char) :
    replaceWholeMarks f (placeholder p ++ rest) = f p ++ replaceWholeMarks f rest := by
  have hb : '\x7d' ∉ '~' :: p ++ ['~'] := by simpa using h.2
  exact replaceBraced_interpolate hb (by rw [wholeMark?_append h.1, map_some]) rest

theorem placeholders_cons {rest : List Char} (h : placeholderAt? (c :: rest) = none) :
    placeholders (c :: rest) = placeholders rest := by
  rw [placeholders, placeholdersFrom, h]
  rfl

theorem placeholders_placeholder (h : IsPath p) (rest : List Char) :
    placeholders (placeholder p ++ rest) = p :: placeholders rest := by
  have ha := placeholderAt?_placeholder h rest
  rw [placeholder_append] at ha ⊢
  rw [placeholders, placeholdersFrom, ha]
  simp only
  rw [placeholdersFrom_eq]
  simp

theorem replaceWholeMarks_of_placeholders_nil (h : placeholders cs = []) : replaceWholeMarks f cs = cs := by
  induction cs with
  | nil => rfl
  | cons c tl ih =>
    rcases placeholder_cases (c :: tl) with hni | ⟨p, post, hp, heq⟩ | ⟨_, _, heq, hn⟩
    · cases hni
    · rw [heq, placeholders_placeholder hp] at h
      cases h
    · obtain ⟨rfl, rfl⟩ := cons.inj heq
      rw [placeholders_cons hn] at h
      rw [replaceWholeMarks_cons f hn, ih h]

end ProcessForge.Expression
