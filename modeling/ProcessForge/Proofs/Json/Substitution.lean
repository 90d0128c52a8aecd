import Mathlib
import ProcessForge.Proofs.Expression.Placeholders
import ProcessForge.Proofs.Json.Grammar
import ProcessForge.Proofs.OrderedMap

/-! Global variables are put into the text of a descriptor before it is read. Main statement: reading the new text
    gives the value of the old one, with the variables put into each of its strings. This asks for values that need
    no escapes, since none are written, and for placeholders that stand in the text as they are: each of them inside
    of one string and without escapes. -/

namespace ProcessForge.Json

open Expression List OrderedMap

variable {c : Char} {pre cs after a rest tl s : List Char} {members ms : List (String × Json)} {v : Json}

/-! ### Texts that can be changed before they are read -/

/-- Characters that placeholders begin and end with. -/
def markChars : List Char := ['$', '\x7b', '~', '\x7d']

/-- The characters that escapes stand for. Letters of an escape that was just found are passed over. -/
def escapedFrom : Nat → List Char → List Char
  | _, [] => []
  | skip + 1, _ :: rest => escapedFrom skip rest
  | 0, c :: rest =>
    match escapeAt? (c :: rest) with
    | none => escapedFrom 0 rest
    | some (e, after) => e :: escapedFrom (rest.length - after.length) rest

/-- The characters that the escapes of a text stand for, from left to right. -/
def escapedChars (cs : List Char) : List Char := escapedFrom 0 cs

/-- Texts that can be changed before they are read. Placeholders are spelled out: none of them reaches from one string
    into another or has an escape in it, and no escape stands for a character that they begin or end with, or for
    half a pair of code units. What is put in needs no escapes. -/
structure IsReady (f : List Char → List Char) (cs : List Char) : Prop where
  paths : ∀ path ∈ placeholders cs, '"' ∉ path ∧ '\\' ∉ path
  news : ∀ path ∈ placeholders cs, (∀ c ∈ path, isPlain c = true) → ∀ c ∈ f path, isPlain c = true
  escapes : ∀ c ∈ escapedChars cs, c ∉ markChars ∧ c ≠ '�'

theorem escapedFrom_eq (skip : Nat) (cs : List Char) : escapedFrom skip cs = escapedChars (cs.drop skip) := by
  induction skip generalizing cs with
  | zero => rfl
  | succ skip ih =>
    cases cs with
    | nil => simp [escapedFrom, escapedChars]
    | cons c tl => rw [escapedFrom, ih tl, drop_succ_cons]

theorem escapedChars_of_ne (h : c ≠ '\\') (rest : List Char) : escapedChars (c :: rest) = escapedChars rest := by
  rw [escapedChars, escapedFrom]
  cases ha : escapeAt? (c :: rest) with
  | none => rfl
  | some fd =>
    obtain ⟨letters, heq, -⟩ := spells_of_escapeAt? ha
    exact absurd (cons.inj heq).1 h

theorem escapedChars_append (h : '\\' ∉ pre) (rest : List Char) : escapedChars (pre ++ rest) = escapedChars rest := by
  induction pre with
  | nil => rfl
  | cons c pre ih =>
    rw [mem_cons, not_or] at h
    rw [cons_append, escapedChars_of_ne (Ne.symm h.1), ih h.2]

theorem escapedChars_of_escapeAt? (h : escapeAt? cs = some (c, after)) : escapedChars cs = c :: escapedChars after := by
  obtain ⟨letters, rfl, -⟩ := spells_of_escapeAt? h
  rw [cons_append] at h ⊢
  rw [escapedChars, escapedFrom, h]
  simp only
  rw [escapedFrom_eq]
  simp

theorem not_mem_of_areLetters {letters : List Char} (h : ∀ d ∈ letters, isEscapeLetter d) (hc : c ∈ markChars) :
    c ∉ letters := by
  intro hm
  have hl := h c hm
  revert hl
  simp only [markChars, mem_cons, not_mem_nil, or_false] at hc
  rcases hc with rfl | rfl | rfl | rfl <;> decide

theorem placeholders_append (h : '$' ∉ pre) (rest : List Char) : placeholders (pre ++ rest) = placeholders rest := by
  induction pre with
  | nil => rfl
  | cons c pre ih =>
    rw [mem_cons, not_or] at h
    rw [cons_append, placeholders_cons (placeholderAt?_of_ne (Ne.symm h.1) _), ih h.2]

namespace IsReady

variable {f : List Char → List Char}

theorem append (h : IsReady f (pre ++ rest)) (hd : '$' ∉ pre) (he : '\\' ∉ pre) : IsReady f rest :=
  ⟨placeholders_append hd rest ▸ h.paths, placeholders_append hd rest ▸ h.news, escapedChars_append he rest ▸ h.escapes⟩

theorem tail (h : IsReady f (c :: rest)) (hn : placeholderAt? (c :: rest) = none) (he : c ≠ '\\') : IsReady f rest :=
  ⟨placeholders_cons hn ▸ h.paths, placeholders_cons hn ▸ h.news, escapedChars_of_ne he rest ▸ h.escapes⟩

theorem escape (h : IsReady f cs) (hes : escapeAt? cs = some (c, after)) :
    (c ∉ markChars ∧ c ≠ '�') ∧ IsReady f after := by
  have he := h.escapes
  rw [escapedChars_of_escapeAt? hes, forall_mem_cons] at he
  obtain ⟨letters, rfl, hl, -⟩ := spells_of_escapeAt? hes
  have hr := placeholders_append (not_mem_of_areLetters hl (by decide)) after
  exact ⟨he.1, hr ▸ h.paths, hr ▸ h.news, he.2⟩

theorem placeholder {path : List Char} (h : IsReady f (Expression.placeholder path ++ rest)) (hpa : IsPath path) :
    ('"' ∉ path ∧ '\\' ∉ path) ∧ ((∀ c ∈ path, isPlain c) → ∀ c ∈ f path, isPlain c) ∧ IsReady f rest := by
  have hr := placeholders_placeholder hpa rest
  obtain ⟨hs, hp⟩ := forall_mem_cons.mp (hr ▸ h.paths)
  obtain ⟨hne, hn⟩ := forall_mem_cons.mp (hr ▸ h.news)
  have he : '\\' ∉ Expression.placeholder path := by
    simpa [Expression.placeholder, interpolate] using hs.2
  exact ⟨hs, hne, hp, hn, escapedChars_append he rest ▸ h.escapes⟩

end IsReady

/-! ### Strings -/

theorem Chars.peel (h : Chars (pre ++ a) s rest) (hq : '"' ∉ pre) (he : '\\' ∉ pre) :
    ∃ s', s = pre ++ s' ∧ Chars a s' rest ∧ ∀ c ∈ pre, isPlain c := by
  induction pre generalizing s with
  | nil => exact ⟨s, rfl, h, by simp⟩
  | cons c pre ih =>
    rw [mem_cons, not_or] at hq he
    cases h with
    | close => exact absurd rfl hq.1
    | escape head _ =>
      obtain ⟨letters, heq, -⟩ := spells_of_escapeAt? head
      exact absurd (cons.inj heq).1.symm he.1
    | plain head tl =>
      obtain ⟨s', rfl, ha, hp⟩ := ih tl hq.2 he.2
      exact ⟨s', rfl, ha, by simpa using ⟨head, hp⟩⟩

theorem Chars.prepend (h : Chars a s rest) (hp : ∀ c ∈ pre, isPlain c) : Chars (pre ++ a) (pre ++ s) rest := by
  induction pre with
  | nil => exact h
  | cons c pre ih =>
    rw [forall_mem_cons] at hp
    exact .plain hp.1 (ih hp.2)

theorem ne_of_isPlain (h : isPlain c) : c ≠ '"' ∧ c ≠ '\\' := by
  simp only [isPlain, Bool.and_eq_true, bne_iff_ne] at h
  exact ⟨h.1.2, h.2⟩

/-- If no escape stands for a character of a mark, such a character is written as it is. -/
theorem Chars.of_mark (h : Chars cs (c :: s) rest) (he : ∀ e ∈ escapedChars cs, e ∉ markChars)
    (hc : c ∈ markChars) : ∃ cs', cs = c :: cs' ∧ Chars cs' s rest ∧ escapedChars cs = escapedChars cs' := by
  cases h with
  | escape head tl =>
    rw [escapedChars_of_escapeAt? head] at he
    exact absurd hc (he c (mem_cons_self ..))
  | plain head tl => exact ⟨_, rfl, tl, escapedChars_of_ne (ne_of_isPlain head).2 _⟩

theorem Chars.of_close (h : Chars cs (pre ++ '~' :: '\x7d' :: s) rest)
    (hes : ∀ e ∈ escapedChars cs, e ∉ markChars) (hb : '\x7d' ∉ pre) :
    ∃ written cs', cs = written ++ '~' :: '\x7d' :: cs' ∧ '\x7d' ∉ written ∧ (pre ≠ [] → written ≠ []) := by
  induction pre generalizing cs with
  | nil =>
    obtain ⟨cs', rfl, ht, heq⟩ := h.of_mark hes (by decide)
    obtain ⟨cs', rfl, -⟩ := ht.of_mark (heq ▸ hes) (by decide)
    exact ⟨[], cs', rfl, by simp, fun hn => absurd rfl hn⟩
  | cons c pre ih =>
    rw [mem_cons, not_or] at hb
    cases h with
    | escape head tl =>
      rw [escapedChars_of_escapeAt? head] at hes
      obtain ⟨written, cs', rfl, hw, -⟩ := ih tl (fun e he => hes e (mem_cons_of_mem _ he)) hb.2
      obtain ⟨letters, rfl, hl, -⟩ := spells_of_escapeAt? head
      refine ⟨'\\' :: letters ++ written, cs', by simp, ?_, by simp⟩
      rw [mem_append, not_or]
      exact ⟨not_mem_of_areLetters hl (by decide), hw⟩
    | plain head tl =>
      rw [escapedChars_of_ne (ne_of_isPlain head).2] at hes
      obtain ⟨written, cs', rfl, hw, -⟩ := ih tl hes hb.2
      exact ⟨c :: written, cs', rfl, by simpa using ⟨hb.1, hw⟩, by simp⟩

theorem Chars.placeholderAt?_isSome {p : List Char} (h : Chars cs s tl)
    (he : ∀ e ∈ escapedChars cs, e ∉ markChars) (hp : placeholderAt? ('$' :: s) = some p) :
    (placeholderAt? ('$' :: cs)).isSome := by
  obtain ⟨hp, a, heq⟩ := eq_of_placeholderAt? hp
  rw [placeholder_append] at heq
  rw [(cons.inj heq).2] at h
  obtain ⟨cs₁, rfl, h₁, he₁⟩ := h.of_mark he (by decide)
  obtain ⟨cs₂, rfl, h₂, he₂⟩ := h₁.of_mark (he₁ ▸ he) (by decide)
  obtain ⟨written, cs', rfl, hb, hn⟩ := h₂.of_close (he₂ ▸ he₁ ▸ he) hp.2
  rw [← placeholder_append, placeholderAt?_placeholder ⟨hn hp.1, hb⟩]
  rfl

variable {f : List Char → List Char}

theorem Chars.substitute (h : Chars cs s rest) (hr : IsReady f cs) :
    Chars (replaceWholeMarks f cs) (replaceWholeMarks f s) (replaceWholeMarks f rest) ∧ IsReady f rest := by
  -- A placeholder is passed in one step, so the induction is on the length of the text.
  induction hle : cs.length using Nat.strong_induction_on generalizing cs s with
  | _ n ih =>
    subst hle
    cases h with
    | close =>
      exact ⟨.close, hr.tail (placeholderAt?_of_ne (by decide) _) (by decide)⟩
    | @escape cs a s rest c head tail =>
      obtain ⟨⟨hm, hh⟩, ha⟩ := hr.escape head
      obtain ⟨ihChars, ihRest⟩ := ih _ (length_lt_of_escapeAt? head) tail ha rfl
      obtain ⟨letters, rfl, hl, hre⟩ := spells_of_escapeAt? head
      have hdo : c ≠ '$' := by
        rintro rfl
        exact hm (by decide)
      rw [replaceWholeMarks_append f (not_mem_of_areLetters hl (by decide)), replaceWholeMarks_of_ne f hdo]
      exact ⟨.escape (hre hh _) ihChars, ihRest⟩
    | @plain cs s rest c head tail =>
      rcases placeholder_cases (c :: cs) with hni | ⟨p, a, hp, heq⟩ | ⟨_, _, heq, hn⟩
      · cases hni
      · have hch := Chars.plain head tail
        rw [heq] at hch hr ⊢
        obtain ⟨⟨hq, hes⟩, hne, ha⟩ := hr.placeholder hp
        obtain ⟨s', hs, ht, hpl⟩ := hch.peel (by simpa [placeholder, interpolate] using hq)
          (by simpa [placeholder, interpolate] using hes)
        have hlt : a.length < (c :: cs).length := by
          rw [heq, placeholder_append]
          simp only [length_cons, length_append]
          omega
        obtain ⟨ihChars, ihRest⟩ := ih _ hlt ht ha rfl
        rw [hs, replaceWholeMarks_placeholder f hp, replaceWholeMarks_placeholder f hp]
        have hpa : ∀ d ∈ p, isPlain d := fun d hd => hpl d (by simp [placeholder, interpolate, hd])
        exact ⟨ihChars.prepend (hne hpa), ihRest⟩
      · obtain ⟨rfl, rfl⟩ := cons.inj heq
        have hes := (ne_of_isPlain head).2
        have ht := hr.tail hn hes
        obtain ⟨ihChars, ihRest⟩ := ih _ (Nat.lt_succ_self _) tail ht rfl
        have hde : placeholderAt? (c :: s) = none := by
          by_cases hc : c = '$'
          · subst hc
            cases hat : placeholderAt? ('$' :: s) with
            | none => rfl
            | some p =>
              have hso := tail.placeholderAt?_isSome (fun e he => (ht.escapes e he).1) hat
              rw [hn] at hso
              cases hso
          · exact placeholderAt?_of_ne hc s
        rw [replaceWholeMarks_cons f hn, replaceWholeMarks_cons f hde]
        exact ⟨.plain head ihChars, ihRest⟩

/-! ### Names and texts of a value -/

mutual

/-- The names of all members of a value, at any depth. -/
def names : Json → List String
  | arr items => itemsNames items
  | obj members => membersNames members
  | _ => []

def itemsNames : List Json → List String
  | [] => []
  | item :: rest => names item ++ itemsNames rest

def membersNames : List (String × Json) → List String
  | [] => []
  | (name, v) :: rest => name :: names v ++ membersNames rest

end

mutual

/-- A value with all its strings changed; names stay. -/
def mapTexts (g : String → String) : Json → Json
  | str s => str (g s)
  | arr items => arr (mapItemsTexts g items)
  | obj members => obj (mapMembersTexts g members)
  | v => v

def mapItemsTexts (g : String → String) : List Json → List Json
  | [] => []
  | item :: rest => mapTexts g item :: mapItemsTexts g rest

def mapMembersTexts (g : String → String) : List (String × Json) → List (String × Json)
  | [] => []
  | (name, v) :: rest => (name, mapTexts g v) :: mapMembersTexts g rest

end

theorem mapMembersTexts_eq (g : String → String) (ms : OrderedMap Json) :
    mapMembersTexts g ms = ms.mapValues (mapTexts g) := by
  induction ms with
  | nil => rfl
  | cons member tl ih =>
    rw [mapMembersTexts, ih]
    rfl

theorem names_subset_of_mem {name : String} (h : (name, v) ∈ members) :
    name ∈ membersNames members ∧ names v ⊆ membersNames members := by
  induction members with
  | nil => cases h
  | cons member tl ih =>
    rcases mem_cons.mp h with heq | hm
    · obtain ⟨rfl, rfl⟩ := Prod.mk.inj heq
      exact ⟨mem_cons_self .., fun n hn => mem_cons_of_mem _ (mem_append_left _ hn)⟩
    · obtain ⟨hna, hs⟩ := ih hm
      exact ⟨mem_append_right _ hna, fun n hn => mem_append_right _ (hs hn)⟩

/-! ### Values -/

/-- Whether a text begins with what may follow a value. -/
def isBehindValue (rest : List Char) : Bool := rest.head?.all fun c => isSpace c || c == ',' || c == ']' || c == '\x7d'

theorem isBehindValue_of_skipSpace (h : (skipSpace rest).head?.all (fun c => c == ',' || c == ']' || c == '\x7d')) :
    isBehindValue rest := by
  cases rest with
  | nil => rfl
  | cons c rest =>
    cases hc : isSpace c with
    | true => simp [isBehindValue, hc]
    | false =>
      have hs : skipSpace (c :: rest) = c :: rest := by simp [skipSpace, hc]
      rw [hs] at h
      simpa [isBehindValue, hc] using h

theorem isBehindValue_cases (h : isBehindValue rest) :
    rest = [] ∨ ∃ c tl, rest = c :: tl ∧ isScalarLetter c = false ∧ c ≠ '$' := by
  cases rest with
  | nil => exact Or.inl rfl
  | cons c tl =>
    refine Or.inr ⟨c, tl, rfl, ?_⟩
    simp only [isBehindValue, isSpace, head?_cons, Option.all_some, Bool.or_eq_true, beq_iff_eq] at h
    rcases h with (((((rfl | rfl) | rfl) | rfl) | rfl) | rfl) | rfl <;> decide

theorem endsScalar_substitute (h : isBehindValue rest) : endsScalar (replaceWholeMarks f rest) := by
  rcases isBehindValue_cases h with rfl | ⟨c, tl, rfl, hl, hd⟩
  · rfl
  · rw [replaceWholeMarks_of_ne f hd]
    simp [endsScalar, hl]

theorem ne_of_isSpace (h : isSpace c) : c ≠ '$' ∧ c ≠ '\\' := by
  constructor <;> rintro rfl <;> exact absurd h (by decide)

/-- Blanks are passed over alike before and after the change, unless a placeholder follows them. -/
theorem skipSpace_substitute (f : List Char → List Char) (h : (skipSpace cs).head? ≠ some '$') :
    skipSpace (replaceWholeMarks f cs) = replaceWholeMarks f (skipSpace cs) := by
  induction cs with
  | nil => rfl
  | cons c cs ih =>
    cases hc : isSpace c with
    | true =>
      have hs : ∀ tail, skipSpace (c :: tail) = skipSpace tail := fun tail => by simp [skipSpace, hc]
      rw [hs] at h
      rw [replaceWholeMarks_of_ne f (ne_of_isSpace hc).1, hs, hs, ih h]
    | false =>
      have hs : ∀ tail, skipSpace (c :: tail) = c :: tail := fun tail => by simp [skipSpace, hc]
      rw [hs] at h ⊢
      rw [replaceWholeMarks_of_ne f (by simpa using h), hs]

theorem IsReady.skipSpace (h : IsReady f cs) : IsReady f (skipSpace cs) := by
  have hb : ∀ c ∈ cs.takeWhile isSpace, isSpace c := fun c hc => mem_takeWhile_imp hc
  have hs : cs.takeWhile isSpace ++ Json.skipSpace cs = cs := takeWhile_append_dropWhile ..
  rw [← hs] at h
  exact h.append (fun hm => (ne_of_isSpace (hb _ hm)).1 rfl) (fun hm => (ne_of_isSpace (hb _ hm)).2 rfl)

theorem token_substitute (f : List Char → List Char) (h : skipSpace cs = c :: rest) (hr : IsReady f cs)
    (hc : c ≠ '$' ∧ c ≠ '\\') :
    skipSpace (replaceWholeMarks f cs) = c :: replaceWholeMarks f rest ∧ IsReady f rest := by
  have ha := hr.skipSpace
  rw [h] at ha
  refine ⟨?_, ha.tail (placeholderAt?_of_ne hc.1 _) hc.2⟩
  rw [skipSpace_substitute f (by simpa [h] using hc.1), h, replaceWholeMarks_of_ne f hc.1]

theorem Value.skipSpace_substitute (f : List Char → List Char) (h : Value (skipSpace cs) v rest) :
    Json.skipSpace (replaceWholeMarks f cs) = replaceWholeMarks f (Json.skipSpace cs) := by
  refine Json.skipSpace_substitute f ?_
  obtain ⟨c, tl, hcs, hc⟩ := h.head
  rw [hcs]
  rintro ⟨rfl⟩
  exact absurd hc (by decide)

def substituted (f : List Char → List Char) (s : String) : String := String.ofList (replaceWholeMarks f s.toList)

/-- The second value is the first one with its strings changed, provided that no name has a placeholder. -/
def Follows (f : List Char → List Char) (v v' : Json) : Prop :=
  (∀ name ∈ v.names, placeholders name.toList = []) → v' = v.mapTexts (substituted f)

/-- The same for members, whose names are changed as well. -/
def MemberFollows (f : List Char → List Char) (member member' : String × Json) : Prop :=
  member'.1 = substituted f member.1 ∧ Follows f member.2 member'.2

theorem mapTexts_of_readNumber {negative : Bool} (h : readNumber negative cs = .ok (v, tl)) (g : String → String) :
    v.mapTexts g = v := by
  rw [readNumber_eq] at h
  split at h
  · cases h
  · unfold readAfterWhole at h
    split at h
    split at h
    · cases h
      rfl
    · split at h
      · split at h <;> cases h
        rfl
      · cases h
        rfl

theorem mapTexts_of_readScalar (h : readScalar cs = .ok (v, tl)) (g : String → String) : v.mapTexts g = v := by
  unfold readScalar at h
  split at h
  · next hw =>
    cases h
    unfold readWord at hw
    split at hw <;> cases hw <;> rfl
  · split at h <;> exact mapTexts_of_readNumber h g

theorem follows_array {is items' : List Json} (h : Forall₂ (Follows f) is items') :
    Follows f (arr is) (arr items') := by
  intro hn
  rw [mapTexts, arr.injEq]
  rw [names] at hn
  induction h with
  | nil => rfl
  | @cons item item' is items' hit _ ih =>
    rw [itemsNames, forall_mem_append] at hn
    rw [mapItemsTexts, hit hn.1, ih hn.2]

/-- An object keeps the last of several members with one name. Names without placeholders stay, so it keeps the
    same members as before. -/
theorem follows_object {members' : List (String × Json)} (h : Forall₂ (MemberFollows f) ms members') :
    Follows f (obj (ofList ms)) (obj (ofList members')) := by
  intro hn
  have hk : ∀ name v, (name, v) ∈ ms → substituted f name = name := by
    intro name v hm
    obtain ⟨kept, hk⟩ := mem_ofList_of_mem hm
    have hp := hn name (names_subset_of_mem hk).1
    rw [substituted, replaceWholeMarks_of_placeholders_nil f hp, String.ofList_toList]
  have hs : Forall₂ (fun member member' => member'.1 = member.1 ∧ Follows f member.2 member'.2) ms members' := by
    clear hn
    induction h with
    | nil => exact .nil
    | cons hh _ ih =>
      exact .cons ⟨hh.1.trans (hk _ _ (mem_cons_self ..)), hh.2⟩ (ih fun name v hm => hk name v (mem_cons_of_mem _ hm))
  rw [mapTexts, mapMembersTexts_eq, obj.injEq]
  refine ofList_eq_mapValues hs fun member hme v' hf => ?_
  exact hf fun name hna => hn name ((names_subset_of_mem hme).2 hna)

mutual

theorem Value.substitute {cs tl : List Char} {v : Json} : Value cs v tl → IsReady f cs → isBehindValue tl →
    (∃ v', Value (replaceWholeMarks f cs) v' (replaceWholeMarks f tl) ∧ Follows f v v') ∧ IsReady f tl
  | .scalar read, hr, hre => by
    obtain ⟨part, rfl, -, hl, hrea⟩ := exists_part_of_readScalar read
    have hn : ∀ c, isScalarLetter c = false → c ∉ part := fun c hc hme => by simp [hl c hme] at hc
    have hd := hn '$' (by decide)
    rw [replaceWholeMarks_append f hd]
    exact ⟨⟨v, .scalar (hrea _ (endsScalar_substitute hre)), fun _ => (mapTexts_of_readScalar read _).symm⟩,
      hr.append hd (hn '\\' (by decide))⟩
  | @Value.string cs s tl chars, hr, _ => by
    have hq : '"' ≠ '$' ∧ '"' ≠ '\\' := by decide
    obtain ⟨hch, ha⟩ := chars.substitute (hr.tail (placeholderAt?_of_ne hq.1 _) hq.2)
    refine ⟨⟨_, .string hch, fun _ => ?_⟩, ha⟩
    rw [mapTexts, substituted, String.toList_ofList]
  | .emptyArray close, hr, _ => by
    have ho : '[' ≠ '$' ∧ '[' ≠ '\\' := by decide
    obtain ⟨hcl, ha⟩ := token_substitute f close (hr.tail (placeholderAt?_of_ne ho.1 _) ho.2) (by decide)
    exact ⟨⟨_, .emptyArray hcl, fun _ => rfl⟩, ha⟩
  | .emptyObject close, hr, _ => by
    have ho : '\x7b' ≠ '$' ∧ '\x7b' ≠ '\\' := by decide
    obtain ⟨hcl, ha⟩ := token_substitute f close (hr.tail (placeholderAt?_of_ne ho.1 _) ho.2) (by decide)
    exact ⟨⟨_, .emptyObject hcl, fun _ => rfl⟩, ha⟩
  | .array all, hr, _ => by
    have ho : '[' ≠ '$' ∧ '[' ≠ '\\' := by decide
    obtain ⟨⟨items', hit, hf⟩, ha⟩ := all.substitute (hr.tail (placeholderAt?_of_ne ho.1 _) ho.2)
    exact ⟨⟨_, .array hit, follows_array hf⟩, ha⟩
  | .object all, hr, _ => by
    have ho : '\x7b' ≠ '$' ∧ '\x7b' ≠ '\\' := by decide
    obtain ⟨⟨members', hm, hf⟩, ha⟩ := all.substitute (hr.tail (placeholderAt?_of_ne ho.1 _) ho.2)
    exact ⟨⟨_, .object hm, follows_object hf⟩, ha⟩

theorem Items.substitute {cs tl : List Char} {is : List Json} : Items cs is tl → IsReady f cs →
    (∃ items', Items (replaceWholeMarks f cs) items' (replaceWholeMarks f tl) ∧
      Forall₂ (Follows f) is items') ∧ IsReady f tl
  | .last item close, hr => by
    obtain ⟨⟨v', hit, hf⟩, ha⟩ := item.substitute hr.skipSpace (isBehindValue_of_skipSpace (by simp [close]))
    obtain ⟨hc, hre⟩ := token_substitute f close ha (by decide)
    rw [← item.skipSpace_substitute f] at hit
    exact ⟨⟨[v'], .last hit hc, .cons hf .nil⟩, hre⟩
  | .more item comma os, hr => by
    obtain ⟨⟨v', hit, hf⟩, ha⟩ := item.substitute hr.skipSpace (isBehindValue_of_skipSpace (by simp [comma]))
    obtain ⟨hco, hn⟩ := token_substitute f comma ha (by decide)
    obtain ⟨⟨items', ho, hfo⟩, hre⟩ := os.substitute hn
    rw [← item.skipSpace_substitute f] at hit
    exact ⟨⟨v' :: items', .more hit hco ho, .cons hf hfo⟩, hre⟩

theorem Members.substitute {cs tl : List Char} {ms : List (String × Json)} : Members cs ms tl → IsReady f cs →
    (∃ members', Members (replaceWholeMarks f cs) members' (replaceWholeMarks f tl) ∧
      Forall₂ (MemberFollows f) ms members') ∧ IsReady f tl
  | .last quote chars colon member close, hr => by
    obtain ⟨hqu, hq⟩ := token_substitute f quote hr (by decide)
    obtain ⟨hc, ha⟩ := chars.substitute hq
    obtain ⟨hco, hv⟩ := token_substitute f colon ha (by decide)
    obtain ⟨⟨v', hm, hf⟩, haf⟩ := member.substitute hv.skipSpace (isBehindValue_of_skipSpace (by simp [close]))
    obtain ⟨hcl, hre⟩ := token_substitute f close haf (by decide)
    rw [← member.skipSpace_substitute f] at hm
    refine ⟨⟨_, .last hqu hc hco hm hcl, .cons ⟨?_, hf⟩ .nil⟩, hre⟩
    rw [substituted, String.toList_ofList]
  | .more quote chars colon member comma os, hr => by
    obtain ⟨hqu, hq⟩ := token_substitute f quote hr (by decide)
    obtain ⟨hc, ha⟩ := chars.substitute hq
    obtain ⟨hco, hv⟩ := token_substitute f colon ha (by decide)
    obtain ⟨⟨v', hm, hf⟩, haf⟩ := member.substitute hv.skipSpace (isBehindValue_of_skipSpace (by simp [comma]))
    obtain ⟨hcom, hn⟩ := token_substitute f comma haf (by decide)
    obtain ⟨⟨members', ho, hfo⟩, hre⟩ := os.substitute hn
    rw [← member.skipSpace_substitute f] at hm
    refine ⟨⟨_, .more hqu hc hco hm hcom ho, .cons ⟨?_, hf⟩ hfo⟩, hre⟩
    rw [substituted, String.toList_ofList]

end

theorem parse_substituted {s : String} (h : parse s = .ok v) (hr : IsReady f s.toList)
    (hn : ∀ name ∈ v.names, placeholders name.toList = []) :
    parse (substituted f s) = .ok (v.mapTexts (substituted f)) := by
  obtain ⟨tl, hv, he⟩ := parse_eq_ok_iff.mp h
  obtain ⟨⟨v', hv', hf⟩, -⟩ := hv.substitute hr.skipSpace (isBehindValue_of_skipSpace (by simp [he]))
  rw [hf hn, ← hv.skipSpace_substitute f] at hv'
  refine parse_eq_ok_iff.mpr ⟨replaceWholeMarks f tl, ?_, ?_⟩
  · rw [substituted, String.toList_ofList]
    exact hv'
  · rw [skipSpace_substitute f (by simp [he]), he]
    rfl

/-! ### Main statement -/

def placeholderValue (globals : OrderedMap String) (path : List Char) : List Char :=
  match globalValue? globals path with
  | some value => value.toList
  | none => placeholder path

theorem isReady_of_values {gs : OrderedMap String} (hp : ∀ p ∈ placeholders cs, '"' ∉ p ∧ '\\' ∉ p)
    (hv : ∀ p ∈ placeholders cs, ∀ value, globalValue? gs p = some value → ∀ c ∈ value.toList, isPlain c)
    (he : ∀ c ∈ escapedChars cs, c ∉ markChars ∧ c ≠ '�') : IsReady (placeholderValue gs) cs := by
  refine ⟨hp, fun p hpa hpl => ?_, he⟩
  rw [placeholderValue]
  cases hva : globalValue? gs p with
  | some value => exact hv p hpa value hva
  | none =>
    simp only [placeholder, interpolate, cons_append, forall_mem_cons, forall_mem_append]
    exact ⟨by decide, by decide, by decide, ⟨hpl, by decide, forall_mem_nil _⟩, by decide, forall_mem_nil _⟩

/-- Putting variables into the text of a descriptor puts them into the strings of its value. -/
theorem parse_substituteGlobalsInFile {globals : OrderedMap String} {s : String} {v : Json} (h : parse s = .ok v)
    (hnames : ∀ name ∈ v.names, placeholders name.toList = [])
    (hpaths : ∀ path ∈ placeholders s.toList, '"' ∉ path ∧ '\\' ∉ path)
    (hvalues : ∀ path ∈ placeholders s.toList, ∀ value, globalValue? globals path = some value →
      ∀ c ∈ value.toList, isPlain c = true) (hescapes : ∀ c ∈ escapedChars s.toList, c ∉ markChars ∧ c ≠ '�') :
    parse (substituteGlobalsInFile globals s) = .ok (v.mapTexts (substituteGlobalsInFile globals)) :=
  parse_substituted h (isReady_of_values hpaths hvalues hescapes) hnames

/-- A call whose address is made from a variable. -/
def callText : String := "\x7b\"url\": \"https://$\x7b~globalVariables.host~\x7d/a\", \"tries\": [3, \"\\u00e9\"]\x7d"

def callValue : Json := obj [("url", str "https://$\x7b~globalVariables.host~\x7d/a"), ("tries", arr [int 3, str "é"])]

theorem parse_substituteGlobalsInFile_call : parse callText = .ok callValue ∧
      parse (substituteGlobalsInFile [("host", "forge.example")] callText) =
        .ok (obj [("url", str "https://forge.example/a"), ("tries", arr [int 3, str "é"])]) := by
  have hread : parse callText = .ok callValue := by cbv
  have hnames : ∀ name ∈ callValue.names, placeholders name.toList = [] := by decide +kernel
  have hpaths : placeholders callText.toList = ["globalVariables.host".toList] := by decide +kernel
  have hvalue : globalValue? [("host", "forge.example")] "globalVariables.host".toList = some "forge.example" := by
    decide +kernel
  have hescapes : escapedChars callText.toList = ['é'] := by decide +kernel
  refine ⟨hread, (parse_substituteGlobalsInFile hread hnames ?_ ?_ ?_).trans (by cbv)⟩
  · rw [hpaths, forall_mem_singleton]
    decide
  · intro path hpath value hfound
    rw [hpaths, mem_singleton] at hpath
    rw [hpath, hvalue] at hfound
    obtain rfl := Option.some.inj hfound
    exact all_eq_true.1 (by decide)
  · rw [hescapes, forall_mem_singleton]
    decide

/-- A value with a quote ends its string too early. A placeholder that is written with an escape is not seen, and one
    that is open at the end of a string takes in the placeholder of another string. -/
theorem substitution_breaks_texts :
    parse (substituteGlobalsInFile [("host", "say \"hi\"")] callText) = .error .malformed ∧
      (parse "[\"\\u0024\x7b~globalVariables.host~\x7d\"]" = .ok (arr [str "$\x7b~globalVariables.host~\x7d"]) ∧
        substituteGlobalsInFile [("host", "h")] "$\x7b~globalVariables.host~\x7d" = "h" ∧
        parse (substituteGlobalsInFile [("host", "h")] "[\"\\u0024\x7b~globalVariables.host~\x7d\"]") =
          .ok (arr [str "$\x7b~globalVariables.host~\x7d"])) ∧
      (parse "[\"$\x7b~\", \"$\x7b~globalVariables.host~\x7d\"]" =
          .ok (arr [str "$\x7b~", str "$\x7b~globalVariables.host~\x7d"]) ∧
        parse (substituteGlobalsInFile [("host", "h")] "[\"$\x7b~\", \"$\x7b~globalVariables.host~\x7d\"]") =
          .ok (arr [str "$\x7b~", str "$\x7b~globalVariables.host~\x7d"])) := by
  refine ⟨?_, ⟨?_, ?_, ?_⟩, ?_, ?_⟩ <;> cbv

end ProcessForge.Json
