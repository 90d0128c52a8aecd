import Mathlib.Data.List.TakeWhile
import ProcessForge.Text.Blank
import ProcessForge.Text.Case
import ProcessForge.Text.Search

/-! Laws of trimming, of fixed beginnings, of splitting at a character and of small letters. A text is its
    trimmed form between two runs of blanks, and the pieces of a text keep their trimmed forms when the text
    is trimmed. -/

namespace ProcessForge.Text

open List

variable {p : Char → Bool} {cs before b after a piece pc : List Char} {separator s c : Char}
  {pieces ps : List (List Char)}

/-! ### Trimming -/

theorem dropWhile_eq_self (h : ∀ c ∈ cs.head?, p c = false) : cs.dropWhile p = cs := by
  cases cs with
  | nil => rfl
  | cons c cs =>
    have hc : p c = false := h c rfl
    simp [hc]

theorem head?_dropWhile (p : Char → Bool) (cs : List Char) : ∀ c ∈ (cs.dropWhile p).head?, p c = false := by
  intro c hc
  have := head?_dropWhile_not p cs
  rw [hc] at this
  simpa using this

theorem trimBy_eq_self (hh : ∀ c ∈ cs.head?, p c = false) (hl : ∀ c ∈ cs.getLast?, p c = false) : trimBy p cs = cs := by
  rw [trimBy, dropWhile_eq_self hh, dropWhile_eq_self (by simpa [head?_reverse] using hl), reverse_reverse]

theorem exists_trimBy (p : Char → Bool) (cs : List Char) : ∃ b a,
    cs = b ++ trimBy p cs ++ a ∧ (∀ c ∈ b, p c) ∧ ∀ c ∈ a, p c := by
  have hs : ∀ ds : List Char, ds = ds.takeWhile p ++ ds.dropWhile p := fun ds => (takeWhile_append_dropWhile).symm
  have ht : ∀ ds : List Char, ∀ c ∈ ds.takeWhile p, p c := fun ds c hc => mem_takeWhile_imp hc
  set ds := cs.dropWhile p with hd
  refine ⟨cs.takeWhile p, (ds.reverse.takeWhile p).reverse, ?_, ht cs, ?_⟩
  · have hb : ds = (ds.reverse.dropWhile p).reverse ++ (ds.reverse.takeWhile p).reverse := by
      rw [← reverse_append, ← hs, reverse_reverse]
    rw [trimBy, append_assoc, ← hb]
    exact hs cs
  · intro c hc
    exact ht _ c (mem_reverse.mp hc)

theorem head?_trimBy (p : Char → Bool) (cs : List Char) : ∀ c ∈ (trimBy p cs).head?, p c = false := by
  intro c hc
  set ds := cs.dropWhile p with hd
  have hp : trimBy p cs <+: ds := by
    rw [trimBy, ← reverse_suffix, reverse_reverse]
    exact dropWhile_suffix p
  obtain ⟨tl, hr⟩ := hp
  apply head?_dropWhile p cs
  rw [← hd, ← hr, head?_append, hc]
  rfl

theorem getLast?_trimBy (p : Char → Bool) (cs : List Char) : ∀ c ∈ (trimBy p cs).getLast?, p c = false := by
  intro c hc
  rw [trimBy, getLast?_reverse] at hc
  exact head?_dropWhile p _ c hc

theorem trimBy_trimBy (p : Char → Bool) (cs : List Char) : trimBy p (trimBy p cs) = trimBy p cs :=
  trimBy_eq_self (head?_trimBy p cs) (getLast?_trimBy p cs)

theorem trimBy_append (cs : List Char) (hb : ∀ c ∈ b, p c) (ha : ∀ c ∈ a, p c) :
    trimBy p (b ++ cs ++ a) = trimBy p cs := by
  have hf : ∀ ds : List Char, (b ++ ds).dropWhile p = ds.dropWhile p := fun ds => dropWhile_append_of_pos hb
  have hba : ∀ ds : List Char, ((ds ++ a).dropWhile p).reverse.dropWhile p
      = (ds.dropWhile p).reverse.dropWhile p := by
    intro ds
    rw [dropWhile_append]
    split
    · next he =>
      rw [List.isEmpty_iff.mp he, dropWhile_eq_nil_iff.mpr ha]
    · rw [reverse_append, dropWhile_append_of_pos]
      intro c hc
      exact ha c (mem_reverse.mp hc)
  rw [trimBy, append_assoc, hf, hba, ← trimBy]

/-! ### Splitting -/

theorem splitAtChar_ne_nil (s : Char) (cs : List Char) : splitAtChar s cs ≠ [] := by
  cases cs with
  | nil => simp [splitAtChar]
  | cons c cs =>
    rw [splitAtChar]
    split
    · simp
    · split <;> simp

theorem splitAtChar_cons_of_ne (h : c ≠ separator) (hs : splitAtChar separator cs = piece :: pieces) :
    splitAtChar separator (c :: cs) = (c :: piece) :: pieces := by
  rw [splitAtChar, if_neg (by simpa using h), hs]

theorem splitAtChar_append_left (h : separator ∉ b) (hs : splitAtChar separator cs = piece :: pieces) :
    splitAtChar separator (b ++ cs) = (b ++ piece) :: pieces := by
  induction b with
  | nil => exact hs
  | cons c b ih =>
    rw [mem_cons, not_or] at h
    exact splitAtChar_cons_of_ne (Ne.symm h.1) (ih h.2)

/-- A text without the separator is its only piece. -/
theorem splitAtChar_of_not_mem (h : separator ∉ cs) : splitAtChar separator cs = [cs] := by
  have hs : splitAtChar separator [] = [[]] := rfl
  simpa using splitAtChar_append_left h hs

theorem splitAtChar_append_separator (cs : List Char) (h : s ∉ b) :
    splitAtChar s (b ++ s :: cs) = b :: splitAtChar s cs := by
  have hs : splitAtChar s (s :: cs) = [] :: splitAtChar s cs := by
    rw [splitAtChar, if_pos (by simp)]
  simpa using splitAtChar_append_left h hs

theorem splitAtChar_intercalate (hn : pieces ≠ []) (h : ∀ pc ∈ pieces, s ∉ pc) :
    splitAtChar s ([s].intercalate pieces) = pieces := by
  induction pieces with
  | nil => exact absurd rfl hn
  | cons pc tl ih =>
    have hpi := h pc (mem_cons_self ..)
    cases tl with
    | nil => rw [intercalate_singleton, splitAtChar_of_not_mem hpi]
    | cons next tl =>
      rw [intercalate_cons_cons, append_assoc, singleton_append,
        splitAtChar_append_separator _ hpi, ih (by simp) fun p hp => h p (mem_cons_of_mem _ hp)]

theorem exists_mem_splitAtChar (s : Char) (hc : c ∈ cs) : c = s ∨ ∃ piece ∈ splitAtChar s cs, c ∈ piece := by
  induction cs with
  | nil => cases hc
  | cons d cs ih =>
    by_cases hd : d = s
    · rw [splitAtChar, if_pos (by simpa using hd)]
      rcases mem_cons.mp hc with rfl | hc
      · exact Or.inl hd
      · rcases ih hc with hc | ⟨piece, hp, hc⟩
        · exact Or.inl hc
        · exact Or.inr ⟨piece, mem_cons_of_mem _ hp, hc⟩
    · obtain ⟨f, ps, hs⟩ := exists_cons_of_ne_nil (splitAtChar_ne_nil s cs)
      rw [splitAtChar_cons_of_ne hd hs]
      rcases mem_cons.mp hc with rfl | hc
      · exact Or.inr ⟨c :: f, by simp, by simp⟩
      · rcases ih hc with hc | ⟨piece, hp, hc⟩
        · exact Or.inl hc
        · rw [hs] at hp
          rcases mem_cons.mp hp with rfl | hp
          · exact Or.inr ⟨d :: piece, by simp, mem_cons_of_mem _ hc⟩
          · exact Or.inr ⟨piece, mem_cons_of_mem _ hp, hc⟩

theorem splitAtChar_append_right (h : s ∉ a) (cs : List Char) : ∃ ps last, splitAtChar s cs = ps ++ [last] ∧
      splitAtChar s (cs ++ a) = ps ++ [last ++ a] := by
  induction cs with
  | nil => exact ⟨[], [], rfl, splitAtChar_of_not_mem h⟩
  | cons c cs ih =>
    obtain ⟨ps, last, hs, ha⟩ := ih
    by_cases hc : c = s
    · subst hc
      refine ⟨[] :: ps, last, ?_, ?_⟩
      · rw [splitAtChar, if_pos (by simp), hs, cons_append]
      · rw [cons_append, splitAtChar, if_pos (by simp), ha, cons_append]
    · cases ps with
      | nil =>
        exact ⟨[], c :: last, splitAtChar_cons_of_ne hc hs, splitAtChar_cons_of_ne hc ha⟩
      | cons pc ps =>
        exact ⟨(c :: pc) :: ps, last, splitAtChar_cons_of_ne hc hs, splitAtChar_cons_of_ne hc ha⟩

theorem splitAtChar_append_cons (s : Char) (cs ds : List Char) :
    splitAtChar s (cs ++ s :: ds) = splitAtChar s cs ++ splitAtChar s ds := by
  induction cs with
  | nil => exact splitAtChar_append_separator ds not_mem_nil
  | cons c cs ih =>
    by_cases hc : c = s
    · rw [cons_append, splitAtChar, splitAtChar, if_pos (beq_iff_eq.mpr hc), if_pos (beq_iff_eq.mpr hc), ih,
        cons_append]
    · obtain ⟨pc, ps, hs⟩ := exists_cons_of_ne_nil (splitAtChar_ne_nil s cs)
      rw [hs, cons_append] at ih
      rw [cons_append, splitAtChar_cons_of_ne hc ih, splitAtChar_cons_of_ne hc hs, cons_append]

theorem not_mem_afterLast (s : Char) (cs : List Char) : s ∉ afterLast s cs := by
  intro hm
  simpa using mem_takeWhile_imp (mem_reverse.mp hm)

theorem afterLast_cases (separator : Char) (cs : List Char) : afterLast separator cs = cs ∨
    ∃ b, cs = b ++ separator :: afterLast separator cs := by
  have hcu : cs = (cs.reverse.dropWhile (· != separator)).reverse ++ afterLast separator cs := by
    rw [afterLast, ← reverse_append, takeWhile_append_dropWhile, reverse_reverse]
  cases hd : cs.reverse.dropWhile (· != separator) with
  | nil =>
    rw [hd] at hcu
    exact .inl hcu.symm
  | cons c b =>
    have hc : c = separator := by simpa [hd] using head?_dropWhile_not (· != separator) cs.reverse
    rw [hd, hc, reverse_cons, append_assoc] at hcu
    exact .inr ⟨_, hcu⟩

theorem afterLast_of_not_mem (h : separator ∉ cs) : afterLast separator cs = cs := by
  rcases afterLast_cases separator cs with hw | ⟨b, hcu⟩
  · exact hw
  · exact absurd (hcu ▸ by simp) h

theorem afterLast_append (b : List Char) (h : separator ∉ after) :
    afterLast separator (b ++ separator :: after) = after := by
  have ha : ∀ c ∈ after.reverse, (c != separator) := fun c hc => by
    simpa using fun heq : c = separator => h (heq ▸ mem_reverse.mp hc)
  rw [afterLast, reverse_append, reverse_cons, append_assoc, takeWhile_append_of_pos ha]
  simp

theorem afterLast_mem_splitAtChar (s : Char) (cs : List Char) : afterLast s cs ∈ splitAtChar s cs := by
  have ho := not_mem_afterLast s cs
  rcases afterLast_cases s cs with hw | ⟨b, hcu⟩
  · rw [hw] at ho ⊢
    simp [splitAtChar_of_not_mem ho]
  · have hp := splitAtChar_append_cons s b (afterLast s cs)
    rw [← hcu, splitAtChar_of_not_mem ho] at hp
    simp [hp]

theorem map_trimBy_splitAtChar (p : Char → Bool) (s : Char) (hp : p s = false)
    (cs : List Char) : (splitAtChar s (trimBy p cs)).map (trimBy p) = (splitAtChar s cs).map (trimBy p) := by
  obtain ⟨b, a, hc, hb, ha⟩ := exists_trimBy p cs
  have ho : ∀ {ds : List Char}, (∀ c ∈ ds, p c) → s ∉ ds := by
    intro ds hd hm
    rw [hd _ hm] at hp
    cases hp
  obtain ⟨ps, last, hs, hr⟩ := splitAtChar_append_right (ho ha) (trimBy p cs)
  obtain ⟨first, os, hf⟩ := exists_cons_of_ne_nil (splitAtChar_ne_nil s (trimBy p cs ++ a))
  have hl := splitAtChar_append_left (ho hb) hf
  have hfi : trimBy p (b ++ first) = trimBy p first := by
    simpa using trimBy_append first hb (forall_mem_nil _)
  have hla : trimBy p (last ++ a) = trimBy p last := by
    simpa using trimBy_append last (forall_mem_nil _) ha
  calc (splitAtChar s (trimBy p cs)).map (trimBy p)
      = (splitAtChar s (trimBy p cs ++ a)).map (trimBy p) := by
        rw [hs, hr]
        simp [hla]
    _ = (splitAtChar s (b ++ (trimBy p cs ++ a))).map (trimBy p) := by
        rw [hl, hf]
        simp [hfi]
    _ = (splitAtChar s cs).map (trimBy p) := by
        rw [← append_assoc, ← hc]

/-! ### Small letters -/

theorem lowerChars_of_ascii (h : ∀ c ∈ cs, c.toNat < 128) : lowerChars cs = cs.map Char.toLower := by
  have hg : ∀ (ds b : List Char), (∀ c ∈ ds, c.toNat < 128) → lowerAfter b ds = ds.map Char.toLower := by
    intro ds
    induction ds with
    | nil => intro b _; rfl
    | cons d ds ih =>
      intro b hd
      rw [lowerAfter, lowerAt, if_pos (hd d (mem_cons_self ..)), ih (d :: b) fun c hc => hd c (mem_cons_of_mem _ hc)]
      rfl
  exact hg cs [] h

theorem ascii_of_toLower (h : c.toLower.toNat < 128) : c.toNat < 128 := by
  delta Char.toLower at h
  split at h
  · next hu =>
    have hl : c.toNat ≤ 'Z'.toNat := hu.2
    exact lt_of_le_of_lt hl (by decide)
  · exact h

theorem toLower_of_lt (h : c.toNat < 65) : c.toLower = c := by
  delta Char.toLower
  rw [dif_neg]
  rintro ⟨hu, -⟩
  exact absurd (lt_of_le_of_lt hu h) (by decide)

theorem head?_lowerChars (h : c.toNat < 65) (cs : List Char) : (lowerChars (c :: cs)).head? = some c := by
  rw [lowerChars, lowerAfter, lowerAt, if_pos (by omega), toLower_of_lt h]
  rfl

/-! ### Fixed beginnings -/

theorem dropPrefix?_append (mark rest : List Char) : dropPrefix? mark (mark ++ rest) = some rest := by
  induction mark with
  | nil => rfl
  | cons c mark ih => simp [dropPrefix?, ih]

theorem eq_append_of_dropPrefix? {rest : List Char} (h : dropPrefix? pc cs = some rest) : cs = pc ++ rest := by
  induction pc generalizing cs with
  | nil => simpa [dropPrefix?] using h
  | cons p pc ih =>
    cases cs with
    | nil => simp [dropPrefix?] at h
    | cons c cs =>
      rw [dropPrefix?] at h
      split at h
      · next hp => rw [ih h, beq_iff_eq.mp hp, cons_append]
      · cases h

/-! ### The first occurrence of a character -/

theorem splitFirst?_append (h : separator ∉ b) (a : List Char) :
    splitFirst? separator (b ++ separator :: a) = some (b, a) := by
  have hb : ∀ c ∈ b, (c != separator) := fun c hc => by
    simpa using fun heq : c = separator => h (heq ▸ hc)
  rw [splitFirst?, dropWhile_append_of_pos hb, takeWhile_append_of_pos hb]
  simp

theorem eq_append_of_splitFirst? (h : splitFirst? separator cs = some (b, after)) : cs = b ++ separator :: after := by
  unfold splitFirst? at h
  split at h
  · cases h
  · next c _ hd =>
    cases h
    have hc : c = separator := by
      have hh := head?_dropWhile_not (· != separator) cs
      rw [hd] at hh
      simpa using hh
    calc cs = cs.takeWhile (· != separator) ++ cs.dropWhile (· != separator) :=
          (takeWhile_append_dropWhile ..).symm
      _ = cs.takeWhile (· != separator) ++ separator :: after := by rw [hd, hc]

theorem not_mem_of_splitFirst? (h : splitFirst? separator cs = some (before, a)) : separator ∉ before := by
  unfold splitFirst? at h
  split at h
  · cases h
  · cases h
    intro hm
    simpa using mem_takeWhile_imp hm

end ProcessForge.Text
