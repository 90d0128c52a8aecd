import ProcessForge.Json.Reader
import Mathlib.Data.List.TakeWhile

/-! Tokens of JSON texts: strings as a relation between a text, the characters that it denotes and the rest of the
    text, and words and numbers by the letters that they are written with. A token is read in the same way with any
    other text behind it, as long as the end of the token can be seen there. -/

namespace ProcessForge.Json

open List Option

variable {cs rest tl s a : List Char} {c : Char} {negative : Bool} {power : Int} {v : Json}

/-! ### Strings -/

/-- The character of an escape with which the characters begin, and what follows. -/
def escapeAt? : List Char → Option (Char × List Char)
  | '\\' :: 'u' :: rest => readUnit rest
  | '\\' :: e :: rest => (simpleEscape? e).map fun c => (c, rest)
  | _ => none

/-- Characters that stand for themselves in a string. -/
def isPlain (c : Char) : Bool := 32 ≤ c.toNat && c != '"' && c != '\\'

/-- The characters of a string up to its closing quote, and what follows. -/
inductive Chars : List Char → List Char → List Char → Prop
  | close {rest : List Char} : Chars ('"' :: rest) [] rest
  | escape {cs after s rest : List Char} {c : Char} (head : escapeAt? cs = some (c, after))
      (tail : Chars after s rest) : Chars cs (c :: s) rest
  | plain {cs s rest : List Char} {c : Char} (head : isPlain c = true) (tail : Chars cs s rest) :
      Chars (c :: cs) (c :: s) rest

/-- Characters that escapes are written with. -/
def isEscapeLetter (c : Char) : Bool := (hexValue? c).isSome || (simpleEscape? c).isSome || c == 'u'

/-- Letters at the beginning of a text that a reader takes for a character. Behind them another text may follow,
    unless they are half a pair of code units. -/
structure Spells (read : List Char → Option (Char × List Char)) (letters : List Char) (c : Char) : Prop where
  areLetters : ∀ d ∈ letters, isEscapeLetter d = true
  reads : c ≠ '�' → ∀ rest, read (letters ++ rest) = some (c, rest)

theorem eq_append_of_readHex4 {unit : Nat} (h : readHex4 cs = some (unit, tl)) :
    ∃ ds, cs = ds ++ tl ∧ (∀ d ∈ ds, isEscapeLetter d) ∧ ∀ after, readHex4 (ds ++ after) = some (unit, after) := by
  unfold readHex4 at h
  split at h
  · next a b c d tail =>
    cases ha : hexValue? a <;> cases hb : hexValue? b <;> cases hc : hexValue? c <;> cases hd : hexValue? d <;>
      simp [ha, hb, hc, hd] at h
    refine ⟨[a, b, c, d], by simp [h.2], by simp [isEscapeLetter, ha, hb, hc, hd], fun after => ?_⟩
    simp [readHex4, ha, hb, hc, hd, h.1]
  · cases h

theorem eq_append_of_readLowSurrogate {low : Nat} (h : readLowSurrogate cs = some (low, tl)) :
    ∃ letters, cs = letters ++ tl ∧ (∀ d ∈ letters, isEscapeLetter d) ∧
      ∀ a, readLowSurrogate (letters ++ a) = some (low, a) := by
  unfold readLowSurrogate at h
  split at h
  · next tail =>
    split at h
    · next unit a hh =>
      split at h
      · next hr =>
        obtain ⟨rfl, rfl⟩ := Prod.mk.inj (some.inj h)
        obtain ⟨ds, rfl, hd, hre⟩ := eq_append_of_readHex4 hh
        refine ⟨'\\' :: 'u' :: ds, rfl, ?_, fun tl => ?_⟩
        · simpa using ⟨by decide, by decide, hd⟩
        · simp [readLowSurrogate, hre, hr]
      · cases h
    · cases h
  · cases h

theorem spells_of_readUnit (h : readUnit cs = some (c, tl)) :
    ∃ letters, cs = letters ++ tl ∧ Spells readUnit letters c := by
  unfold readUnit at h
  split at h
  · cases h
  · next unit a hhe =>
    obtain ⟨ds, rfl, hdi, hre⟩ := eq_append_of_readHex4 hhe
    split at h
    · next hh =>
      split at h
      · next low tail hl =>
        obtain ⟨rfl, rfl⟩ := Prod.mk.inj (some.inj h)
        obtain ⟨letters, rfl, hle, hr⟩ := eq_append_of_readLowSurrogate hl
        refine ⟨ds ++ letters, by simp, ?_, fun _ tl => ?_⟩
        · exact fun d hd => (mem_append.mp hd).elim (hdi d) (hle d)
        · rw [append_assoc, readUnit, hre]
          simp [hh, hr]
      · obtain ⟨rfl, rfl⟩ := Prod.mk.inj (some.inj h)
        exact ⟨ds, rfl, hdi, fun hc => absurd rfl hc⟩
    · next hh =>
      split at h
      · obtain ⟨rfl, rfl⟩ := Prod.mk.inj (some.inj h)
        exact ⟨ds, rfl, hdi, fun hc => absurd rfl hc⟩
      · next hl =>
        obtain ⟨rfl, rfl⟩ := Prod.mk.inj (some.inj h)
        refine ⟨ds, rfl, hdi, fun _ tl => ?_⟩
        rw [readUnit, hre]
        simp only [hh, hl]
        rfl

theorem spells_of_escapeAt? (h : escapeAt? cs = some (c, tl)) :
    ∃ letters, cs = '\\' :: letters ++ tl ∧ Spells escapeAt? ('\\' :: letters) c := by
  unfold escapeAt? at h
  split at h
  · obtain ⟨letters, rfl, hl, hr⟩ := spells_of_readUnit h
    refine ⟨'u' :: letters, rfl, ?_, fun hc tl => hr hc tl⟩
    simpa using ⟨by decide, by decide, hl⟩
  · next e tail hu =>
    obtain ⟨c', hs, heq⟩ := map_eq_some_iff.mp h
    obtain ⟨rfl, rfl⟩ := Prod.mk.inj heq
    refine ⟨[e], rfl, ?_, fun _ tl => ?_⟩
    · simpa [isEscapeLetter, hs] using by decide
    · simp [escapeAt?, hs]
  · cases h

theorem length_lt_of_escapeAt? (h : escapeAt? cs = some (c, tl)) : tl.length < cs.length := by
  obtain ⟨letters, rfl, -⟩ := spells_of_escapeAt? h
  simp only [cons_append, length_cons, length_append]
  omega

theorem exists_of_bind {α β : Type} {x : Except Fault α} {f : α → Except Fault β} {b : β}
    (h : x >>= f = .ok b) : ∃ a, x = .ok a ∧ f a = .ok b := by
  cases x with
  | error _ => cases h
  | ok a => exact ⟨a, rfl, h⟩

theorem chars_of_readString {k : Nat} (h : readString k cs = .ok (s, rest)) : Chars cs s rest := by
  fun_induction readString k cs generalizing s rest with
  | case1 | case2 | case4 | case6 | case8 => cases h
  | case3 =>
    cases h
    exact .close
  | case5 k tl c a hun ih =>
    obtain ⟨⟨s', tl'⟩, hr, hp⟩ := exists_of_bind h
    cases hp
    exact .escape (by simpa [escapeAt?] using hun) (ih hr)
  | case7 k e tl hu c hs ih =>
    obtain ⟨⟨s', tl'⟩, hr, hp⟩ := exists_of_bind h
    cases hp
    exact .escape (by simp [escapeAt?, hs]) (ih hr)
  | case9 k c tl hq _ _ hpl ih =>
    obtain ⟨⟨s', tl'⟩, hr, hp⟩ := exists_of_bind h
    cases hp
    refine .plain ?_ (ih hr)
    simp only [Bool.or_eq_true, decide_eq_true_eq, beq_iff_eq, not_or, Nat.not_lt] at hpl
    simpa [isPlain, hpl] using hq

theorem readString_escape (h : escapeAt? cs = some (c, a)) (k : Nat) :
    readString (k + 1) cs = (readString k a).map fun read => (c :: read.1, read.2) := by
  unfold escapeAt? at h
  split at h
  · rw [readString, h]
    rfl
  · obtain ⟨c', hs, heq⟩ := map_eq_some_iff.mp h
    cases heq
    rw [readString, hs]
    · rfl
    · assumption
  · cases h

theorem readString_plain (h : isPlain c) (k : Nat) (cs : List Char) :
    readString (k + 1) (c :: cs) = (readString k cs).map fun read => (c :: read.1, read.2) := by
  simp only [isPlain, Bool.and_eq_true, decide_eq_true_eq, bne_iff_ne] at h
  rw [readString]
  · rw [if_neg (by simpa [h.2] using h.1.1)]
    rfl
  all_goals simp_all

theorem readString_of_chars (h : Chars cs s tl) {k : Nat} (hf : cs.length < k) : readString k cs = .ok (s, tl) := by
  induction h generalizing k with
  | close =>
    obtain ⟨k, rfl⟩ := Nat.exists_eq_add_one_of_ne_zero (Nat.ne_zero_of_lt hf)
    rfl
  | @escape cs a s tl c head tail ih =>
    obtain ⟨k, rfl⟩ := Nat.exists_eq_add_one_of_ne_zero (Nat.ne_zero_of_lt hf)
    have hl := length_lt_of_escapeAt? head
    rw [readString_escape head, ih (by omega)]
    rfl
  | @plain cs s tl c head tail ih =>
    obtain ⟨k, rfl⟩ := Nat.exists_eq_add_one_of_ne_zero (Nat.ne_zero_of_lt hf)
    rw [readString_plain head, ih (by simpa using hf)]
    rfl

theorem Chars.length_add_lt (h : Chars cs s tl) : s.length + tl.length < cs.length := by
  induction h with
  | close => simp
  | escape head _ ih =>
    have := length_lt_of_escapeAt? head
    rw [length_cons]
    omega
  | plain _ _ ih =>
    rw [length_cons, length_cons]
    omega

theorem Chars.length_lt (h : Chars cs s tl) : tl.length < cs.length := by
  have := h.length_add_lt
  omega

/-! ### Words and numbers -/

/-- A word or a number at the beginning of a text. -/
def readScalar (cs : List Char) : Except Fault (Json × List Char) :=
  match readWord cs with
  | some (value, rest) => .ok (value, rest)
  | none =>
    match cs with
    | '-' :: rest => readNumber true rest
    | _ => readNumber false cs

/-- Characters that words and numbers are written with. -/
def isScalarLetter (c : Char) : Bool := c.isAlphanum || c == '.' || c == '+' || c == '-'

/-- Whether a text begins with nothing that could belong to a word or a number before it. -/
def endsScalar (rest : List Char) : Bool := rest.head?.all fun c => !isScalarLetter c

theorem isScalarLetter_of_isDigit (h : c.isDigit) : isScalarLetter c := by
  simp [isScalarLetter, Char.isAlphanum, h]

def noDigit (rest : List Char) : Bool := rest.head?.all fun c => !c.isDigit

theorem noDigit_of_endsScalar (h : endsScalar tl) : noDigit tl := by
  cases tl with
  | nil => rfl
  | cons c tl =>
    cases hc : c.isDigit with
    | false => simp [noDigit, hc]
    | true => simp [endsScalar, isScalarLetter_of_isDigit hc] at h

theorem isDigit_of_mem_digitsOf (h : c ∈ digitsOf cs) : c.isDigit := mem_takeWhile_imp h

theorem digitsOf_append_drop (cs : List Char) : digitsOf cs ++ cs.drop (digitsOf cs).length = cs :=
  (prefix_iff_eq_append.mp ( takeWhile_prefix _))

theorem digitsOf_append {digits : List Char} (hd : ∀ c ∈ digits, c.isDigit) (h : noDigit tl) :
    digitsOf (digits ++ tl) = digits := by
  rw [digitsOf, takeWhile_append_of_pos hd]
  cases tl with
  | nil => simp
  | cons c tl =>
    have hc : c.isDigit = false := by simpa [noDigit] using h
    simp [hc]

theorem exists_part_of_readFraction {fraction : List Char} (h : readFraction cs = (fraction, tl)) :
    ∃ p, cs = p ++ tl ∧ (∀ c ∈ p, isScalarLetter c) ∧ (p = [] ∨ p.head? = some '.') ∧
      ∀ a, noDigit a → a.head? ≠ some '.' → readFraction (p ++ a) = (fraction, a) := by
  have hn : ∀ a : List Char, a.head? ≠ some '.' → readFraction a = ([], a) := by
    intro a hp
    unfold readFraction
    split
    · simp at hp
    · rfl
  unfold readFraction at h
  split at h
  · next tail =>
    dsimp only at h
    split at h
    · next he =>
      cases h
      exact ⟨[], rfl, by simp, Or.inl rfl, fun a _ hp => hn a hp⟩
    · next hd =>
      cases h
      refine ⟨'.' :: digitsOf tail, by simp [digitsOf_append_drop], ?_, Or.inr rfl, fun a ha _ => ?_⟩
      · simpa using ⟨by decide, fun c hc => isScalarLetter_of_isDigit (isDigit_of_mem_digitsOf hc)⟩
      · have hag := digitsOf_append (fun c => @isDigit_of_mem_digitsOf tail c) ha
        simp [readFraction, hag, hd]
  · cases h
    exact ⟨[], rfl, by simp, Or.inl rfl, fun a _ hp => hn a hp⟩

/-- Digits of a power of ten behind its sign. -/
def readUnsigned (negative : Bool) (body : List Char) : Option (Int × List Char) :=
  if (digitsOf body).isEmpty then none
  else some (if negative then -(digitsValue (digitsOf body) : Int) else digitsValue (digitsOf body),
    body.drop (digitsOf body).length)

theorem exists_part_of_readUnsigned {b : List Char} (h : readUnsigned negative b = some (power, tl)) :
    ∃ ds, b = ds ++ tl ∧ (∀ c ∈ ds, c.isDigit) ∧ ds ≠ [] ∧
      ∀ a, noDigit a → readUnsigned negative (ds ++ a) = some (power, a) := by
  rw [readUnsigned] at h
  split at h
  · cases h
  · next hd =>
    cases h
    refine ⟨digitsOf b, (digitsOf_append_drop b).symm, fun c => isDigit_of_mem_digitsOf,
      by simpa using hd, fun a ha => ?_⟩
    have hag := digitsOf_append (fun c => @isDigit_of_mem_digitsOf b c) ha
    simp [readUnsigned, hag, hd]

theorem readPowerDigits_eq_of_ne (hm : cs.head? ≠ some '-') (hp : cs.head? ≠ some '+') :
    readPowerDigits cs = readUnsigned false cs := by
  unfold readPowerDigits readUnsigned
  split
  next negative body heq =>
  split at heq
  · simp at hm
  · simp at hp
  · cases heq
    rfl

theorem exists_part_of_readPowerDigits (h : readPowerDigits cs = some (power, tl)) :
    ∃ p, cs = p ++ tl ∧ (∀ c ∈ p, isScalarLetter c) ∧ ∀ a, noDigit a → readPowerDigits (p ++ a) = some (power, a) := by
  by_cases hm : cs.head? = some '-'
  · obtain ⟨body, rfl⟩ : ∃ body, cs = '-' :: body := head?_eq_some_iff.mp hm
    obtain ⟨ds, rfl, hd, -, hr⟩ := exists_part_of_readUnsigned (h : readUnsigned true body = _)
    refine ⟨'-' :: ds, rfl, ?_, fun a ha => hr a ha⟩
    simpa using ⟨by decide, fun c hc => isScalarLetter_of_isDigit (hd c hc)⟩
  by_cases hp : cs.head? = some '+'
  · obtain ⟨body, rfl⟩ : ∃ body, cs = '+' :: body := head?_eq_some_iff.mp hp
    obtain ⟨ds, rfl, hd, -, hr⟩ := exists_part_of_readUnsigned (h : readUnsigned false body = _)
    refine ⟨'+' :: ds, rfl, ?_, fun a ha => hr a ha⟩
    simpa using ⟨by decide, fun c hc => isScalarLetter_of_isDigit (hd c hc)⟩
  rw [readPowerDigits_eq_of_ne hm hp] at h
  obtain ⟨ds, rfl, hd, hn, hr⟩ := exists_part_of_readUnsigned h
  refine ⟨ds, rfl, fun c hc => isScalarLetter_of_isDigit (hd c hc), fun a ha => ?_⟩
  obtain ⟨d, ds, rfl⟩ := exists_cons_of_ne_nil hn
  exact (readPowerDigits_eq_of_ne (by simpa using hm) (by simpa using hp)).trans (hr a ha)

theorem exists_part_of_readPower (h : readPower cs = some (power, tl)) :
    ∃ p, cs = p ++ tl ∧ (∀ c ∈ p, isScalarLetter c) ∧ (p.head? = some 'e' ∨ p.head? = some 'E') ∧
      ∀ a, noDigit a → readPower (p ++ a) = some (power, a) := by
  unfold readPower at h
  split at h
  · obtain ⟨p, rfl, hp, hr⟩ := exists_part_of_readPowerDigits h
    exact ⟨'e' :: p, rfl, by simpa using ⟨by decide, hp⟩, Or.inl rfl, hr⟩
  · obtain ⟨p, rfl, hp, hr⟩ := exists_part_of_readPowerDigits h
    exact ⟨'E' :: p, rfl, by simpa using ⟨by decide, hp⟩, Or.inr rfl, hr⟩
  · cases h

theorem readPower_of_endsScalar (h : endsScalar tl) : readPower tl = none := by
  unfold readPower
  split
  · cases h
  · cases h
  · rfl

def wholeDigits (cs : List Char) : List Char :=
  match cs with
  | '0' :: _ => ['0']
  | _ => digitsOf cs

/-- A number, after the digits before its point. -/
def readAfterWhole (negative : Bool) (whole cs : List Char) : Except Fault (Json × List Char) :=
  let (fraction, rest) := readFraction cs
  match readPower rest with
  | some (power, rest) =>
    let digits := whole ++ fraction
    .ok (float (Binary64.ofDecimal negative (digitsValue digits) digits.length (power - fraction.length)), rest)
  | none =>
    if fraction.isEmpty then
      if 4300 < whole.length then .error .hugeNumber
      else
        let n : Int := digitsValue whole
        .ok (int (if negative then -n else n), rest)
    else
      let digits := whole ++ fraction
      .ok (float (Binary64.ofDecimal negative (digitsValue digits) digits.length (-(fraction.length : Int))), rest)

theorem readNumber_eq (negative : Bool) (cs : List Char) : readNumber negative cs =
      if (wholeDigits cs).isEmpty then .error .malformed
      else readAfterWhole negative (wholeDigits cs) (cs.drop (wholeDigits cs).length) := rfl

theorem head?_ne_of_endsScalar (h : endsScalar tl) (hc : isScalarLetter c) : tl.head? ≠ some c := by
  intro hh
  simp [endsScalar, hh, hc] at h

theorem noDigit_append {p : List Char} (hp : noDigit p) (ha : noDigit a) : noDigit (p ++ a) := by
  cases p with
  | nil => exact ha
  | cons c p => exact hp

theorem exists_part_of_readAfterWhole {whole : List Char} (h : readAfterWhole negative whole cs = .ok (v, rest)) :
    ∃ p, cs = p ++ rest ∧ noDigit p ∧ (∀ c ∈ p, isScalarLetter c) ∧
      ∀ a, endsScalar a → readAfterWhole negative whole (p ++ a) = .ok (v, a) := by
  rw [readAfterWhole] at h
  rcases hf : readFraction cs with ⟨fraction, tl⟩
  obtain ⟨p, rfl, hpa, hp, hr⟩ := exists_part_of_readFraction hf
  have hno : noDigit p := by
    rcases hp with rfl | hp
    · rfl
    · simp only [noDigit, hp]
      decide
  rw [hf] at h
  dsimp only at h
  cases hpo : readPower tl with
  | some f =>
    obtain ⟨mark, rfl, hma, hh, hre⟩ := exists_part_of_readPower hpo
    rw [hpo] at h
    cases h
    have hm : noDigit mark := by
      rcases hh with hh | hh <;> simp only [noDigit, hh] <;> decide
    refine ⟨p ++ mark, by simp, noDigit_append hno hm,
      fun c hc => (mem_append.mp hc).elim (hpa c) (hma c), fun a ha => ?_⟩
    have hd := noDigit_of_endsScalar ha
    have hn : (mark ++ a).head? ≠ some '.' := by
      rcases hh with hh | hh <;> simp [head?_append, hh]
    rw [readAfterWhole, append_assoc, hr _ (noDigit_append hm hd) hn]
    simp [hre a hd]
  | none =>
    rw [hpo] at h
    have hres : tl = rest := by
      dsimp only at h
      split at h
      · split at h
        · cases h
        · exact (Prod.mk.inj (Except.ok.inj h)).2
      · exact (Prod.mk.inj (Except.ok.inj h)).2
    subst hres
    refine ⟨p, rfl, hno, hpa, fun a ha => ?_⟩
    have hn := head?_ne_of_endsScalar ha (c := '.') (by decide)
    rw [readAfterWhole, hr a (noDigit_of_endsScalar ha) hn]
    simp only [readPower_of_endsScalar ha]
    dsimp only at h
    split at h
    · next he =>
      rw [if_pos he]
      split at h
      · cases h
      · next hhu =>
        cases h
        rw [if_neg hhu]
    · next hfu =>
      cases h
      rw [if_neg hfu]

theorem wholeDigits_append (h : (wholeDigits cs).isEmpty = false) (ha : noDigit a) :
    wholeDigits (wholeDigits cs ++ a) = wholeDigits cs := by
  by_cases hz : ∃ tl, cs = '0' :: tl
  · obtain ⟨tl, rfl⟩ := hz
    rfl
  · have hc : wholeDigits cs = digitsOf cs := by
      unfold wholeDigits
      split
      · next tl => exact absurd ⟨tl, rfl⟩ hz
      · rfl
    rw [hc] at h ⊢
    unfold wholeDigits
    split
    · next tl heq =>
      -- The first digit is not zero, since the text did not begin with zero.
      cases hd : digitsOf cs with
      | nil => simp [hd] at h
      | cons d ds =>
        have hs := digitsOf_append_drop cs
        rw [hd] at heq hs
        exact absurd ⟨_, hs.symm.trans (congrArg (· :: _) (cons.inj heq).1)⟩ hz
    · exact digitsOf_append (fun c => isDigit_of_mem_digitsOf) ha

theorem wholeDigits_append_drop (cs : List Char) : wholeDigits cs ++ cs.drop (wholeDigits cs).length = cs := by
  unfold wholeDigits
  split
  · rfl
  · exact digitsOf_append_drop cs

theorem isDigit_of_mem_wholeDigits (h : c ∈ wholeDigits cs) : c.isDigit := by
  unfold wholeDigits at h
  split at h
  · rw [mem_singleton.mp h]
    decide
  · exact isDigit_of_mem_digitsOf h

theorem exists_part_of_readNumber (h : readNumber negative cs = .ok (v, tl)) :
    ∃ d ds, d.isDigit ∧ cs = d :: ds ++ tl ∧ (∀ c ∈ ds, isScalarLetter c) ∧
      ∀ after, endsScalar after → readNumber negative (d :: ds ++ after) = .ok (v, after) := by
  rw [readNumber_eq] at h
  cases hw : wholeDigits cs with
  | nil => simp [hw] at h
  | cons d whole =>
    have hd : ∀ c ∈ d :: whole, c.isDigit := fun c hc => isDigit_of_mem_wholeDigits (hw ▸ hc)
    have hs := wholeDigits_append_drop cs
    rw [if_neg (by simp [hw])] at h
    obtain ⟨p, hcs, hn, hl, hr⟩ := exists_part_of_readAfterWhole h
    rw [hcs, hw] at hs
    refine ⟨d, whole ++ p, hd d (mem_cons_self ..), by rw [← hs]; simp, ?_, fun after haf => ?_⟩
    · intro c hc
      rcases mem_append.mp hc with hc | hc
      · exact isScalarLetter_of_isDigit (hd c (mem_cons_of_mem _ hc))
      · exact hl c hc
    · have hag : wholeDigits (d :: (whole ++ p) ++ after) = d :: whole := by
        have ha := @wholeDigits_append cs (p ++ after) (by simp [hw]) (noDigit_append hn (noDigit_of_endsScalar haf))
        rw [hw] at ha
        simpa using ha
      rw [readNumber_eq, hag, if_neg (by simp)]
      have hdr : (d :: (whole ++ p) ++ after).drop (d :: whole).length = p ++ after := by simp
      rw [hdr, ← hw]
      exact hr after haf

theorem exists_part_of_readWord (h : readWord cs = some (v, tl)) :
    ∃ p, cs = p ++ tl ∧ p ≠ [] ∧ (∀ c ∈ p, isScalarLetter c) ∧ ∀ a, readWord (p ++ a) = some (v, a) := by
  unfold readWord at h
  split at h <;> cases h
  · exact ⟨['n', 'u', 'l', 'l'], rfl, by decide, all_eq_true.1 (by decide), fun _ => rfl⟩
  · exact ⟨['t', 'r', 'u', 'e'], rfl, by decide, all_eq_true.1 (by decide), fun _ => rfl⟩
  · exact ⟨['f', 'a', 'l', 's', 'e'], rfl, by decide, all_eq_true.1 (by decide), fun _ => rfl⟩
  · exact ⟨['N', 'a', 'N'], rfl, by decide, all_eq_true.1 (by decide), fun _ => rfl⟩
  · exact ⟨['I', 'n', 'f', 'i', 'n', 'i', 't', 'y'], rfl, by decide, all_eq_true.1 (by decide), fun _ => rfl⟩
  · exact ⟨['-', 'I', 'n', 'f', 'i', 'n', 'i', 't', 'y'], rfl, by decide, all_eq_true.1 (by decide), fun _ => rfl⟩

theorem readWord_of_isDigit {d : Char} (h : d.isDigit) (cs : List Char) :
    readWord (d :: cs) = none ∧ readWord ('-' :: d :: cs) = none := by
  constructor
  · unfold readWord
    split
    case h_7 => rfl
    all_goals
      next heq =>
      obtain ⟨rfl, -⟩ := cons.inj heq
      exact absurd h (by decide)
  · unfold readWord
    split
    case h_7 => rfl
    case h_6 heq =>
      obtain ⟨rfl, -⟩ := cons.inj (cons.inj heq).2
      exact absurd h (by decide)
    all_goals
      next heq => exact absurd (cons.inj heq).1 (by decide)

theorem exists_part_of_readScalar (h : readScalar cs = .ok (v, tl)) :
    ∃ p, cs = p ++ tl ∧ p ≠ [] ∧ (∀ c ∈ p, isScalarLetter c) ∧
      ∀ a, endsScalar a → readScalar (p ++ a) = .ok (v, a) := by
  unfold readScalar at h
  split at h
  · next hw =>
    cases h
    obtain ⟨p, hc, hn, hl, hr⟩ := exists_part_of_readWord hw
    refine ⟨p, hc, hn, hl, fun a _ => ?_⟩
    unfold readScalar
    rw [hr]
  · split at h
    · next tail =>
      obtain ⟨d, ds, hd, rfl, hl, hr⟩ := exists_part_of_readNumber h
      refine ⟨'-' :: d :: ds, rfl, by simp, ?_, fun a ha => ?_⟩
      · simpa using ⟨by decide, isScalarLetter_of_isDigit hd, hl⟩
      · unfold readScalar
        rw [cons_append, cons_append, (readWord_of_isDigit hd (ds ++ a)).2]
        exact hr a ha
    · obtain ⟨d, ds, hd, rfl, hl, hr⟩ := exists_part_of_readNumber h
      refine ⟨d :: ds, rfl, by simp, ?_, fun a ha => ?_⟩
      · simpa using ⟨isScalarLetter_of_isDigit hd, hl⟩
      · unfold readScalar
        rw [cons_append, (readWord_of_isDigit hd (ds ++ a)).1]
        dsimp only
        split
        · next heq =>
          obtain ⟨rfl, -⟩ := cons.inj heq
          exact absurd hd (by decide)
        · exact hr a ha

end ProcessForge.Json
