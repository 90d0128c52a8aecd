import Mathlib.Data.List.Basic
import Mathlib.Data.List.Induction
import ProcessForge.Proofs.Duration.Grammar
import ProcessForge.Proofs.Failing
import ProcessForge.Proofs.Number.Exactness

/-! The length of a duration. A text with years or months has none. Any other length in whole seconds is exact as long
    as its milliseconds are below `2 ^ 53`, though the sum goes through numbers with a binary point; and the clock
    shows it. A number in front of W, D, H or M that is written with more than 4300 digits is not read, even if most
    of them are leading zeros. -/

namespace ProcessForge

open List Text
open String (ofList toList_ofList)

/-! ### Numerals -/

namespace Text

theorem digitValue?_getD_lt (c : Char) : (digitValue? c).getD 0 < 10 := by
  unfold digitValue?
  cases hz : digitZeros.find? fun z => z ≤ c.toNat && c.toNat ≤ z + 9 with
  | none => exact Nat.succ_pos 9
  | some z =>
    have hr := find?_some hz
    simp only [Bool.and_eq_true, decide_eq_true_eq] at hr
    simp only [Option.map_some, Option.getD_some]
    omega

theorem numeral_concat (ds : List Char) (c : Char) :
    numeral (ds ++ [c]) = 10 * numeral ds + (digitValue? c).getD 0 := by
  simp [numeral]

theorem numeral_append (f back : List Char) : numeral (f ++ back) = numeral f * 10 ^ back.length + numeral back := by
  induction back using reverseRecOn with
  | nil => simp [numeral]
  | append_singleton back c ih =>
    rw [← append_assoc, numeral_concat, numeral_concat, ih, length_append, length_singleton]
    ring

theorem numeral_lt (ds : List Char) : numeral ds < 10 ^ ds.length := by
  induction ds using reverseRecOn with
  | nil => decide
  | append_singleton ds c ih =>
    have hc := digitValue?_getD_lt c
    rw [numeral_concat, length_append, length_singleton]
    omega

theorem numeral_zeros (n : Nat) : numeral (replicate n '0') = 0 := by
  induction n with
  | zero => rfl
  | succ n ih =>
    rw [replicate_succ', numeral_concat, ih]
    rfl

theorem digitValue?_of_isDigit {c : Char} (h : c.isDigit) : digitValue? c = some (c.toNat - '0'.toNat) := by
  rw [Char.isDigit_iff_toNat] at h
  have hr : (decide (0x30 ≤ c.toNat) && decide (c.toNat ≤ 0x30 + 9)) := by simpa using h
  have hf : digitZeros.find? (fun z => z ≤ c.toNat && c.toNat ≤ z + 9) = some 0x30 := find?_cons_of_pos hr
  rw [digitValue?, hf]
  rfl

theorem numeral_toDigits (n : Nat) : numeral (Nat.toDigits 10 n) = n := by
  have hd : ∀ c ∈ Nat.toDigits 10 n, (digitValue? c).getD 0 = c.toNat - '0'.toNat := fun c hc => by
    rw [digitValue?_of_isDigit (Nat.isDigit_of_mem_toDigits (by decide) (by decide) hc), Option.getD_some]
  calc numeral (Nat.toDigits 10 n) = Nat.ofDigitChars 10 (Nat.toDigits 10 n) 0 :=
        foldl_ext _ _ _ fun total c hc => by rw [hd c hc]
    _ = n := Nat.ofDigitChars_ten_toDigits

end Text

namespace Duration

open Binary64

/-! ### Milliseconds -/

/-- The number of a part; a missing part counts nothing. -/
def count (part : Option (List Char)) : Nat := (part.map numeral).getD 0

/-- Whole seconds of the parts of fixed length. -/
def total (d : Duration) : Nat := 604800 * count d.weeks + 86400 * count d.days + 3600 * count d.hours
  + 60 * count d.minutes + count (d.seconds.map Prod.fst)

/-- The seconds are missing or a whole number. -/
def HasWholeSeconds (d : Duration) : Prop := ∀ seconds ∈ d.seconds, numeral seconds.2 = 0

/-- The number of some part of fixed length, seconds apart, has more digits than are read. -/
def HasLongNumber (d : Duration) : Prop :=
  ∃ part ∈ [d.weeks, d.days, d.hours, d.minutes], ∃ digits ∈ part, 4300 < digits.length

variable {d : Duration} {part : Option (List Char)}

theorem partValue_ok (h : ¬ ∃ ds ∈ part, 4300 < ds.length) : partValue part = .ok (count part) := by
  cases part with
  | none => rfl
  | some ds =>
    have hl : ¬ 4300 < ds.length := fun hlo => h ⟨ds, rfl, hlo⟩
    simp [partValue, count, hl]

theorem partValue_long (h : ∃ ds ∈ part, 4300 < ds.length) : partValue part = .error .hugeNumber := by
  obtain ⟨ds, rfl, hl⟩ := h
  simp [partValue, hl]

theorem partValue_cases (part : Option (List Char)) :
    partValue part = .ok (count part) ∨ partValue part = .error .hugeNumber := by
  by_cases h : ∃ ds ∈ part, 4300 < ds.length
  · exact .inr (partValue_long h)
  · exact .inl (partValue_ok h)

theorem represents_secondsValue (h : d.HasWholeSeconds) (hb : count (d.seconds.map Prod.fst) < 2 ^ 53) :
    Represents (secondsValue d.seconds) (count (d.seconds.map Prod.fst)) := by
  cases hs : d.seconds with
  | none => exact represents_ofNat (by decide)
  | some seconds =>
    obtain ⟨whole, fraction⟩ := seconds
    have hz : numeral fraction = 0 := h (whole, fraction) hs
    have hn : numeral (whole ++ fraction) = numeral whole * 10 ^ fraction.length := by
      rw [numeral_append, hz, Nat.add_zero]
    have hl := numeral_lt (whole ++ fraction)
    rw [hs] at hb
    rw [hn] at hl
    simp only [secondsValue, hn]
    exact represents_ofDecimal hl hb

theorem toMillis_long (h : d.HasLongNumber) : d.toMillis = .error .hugeNumber := by
  obtain ⟨part, hme, hl⟩ := h
  have hp := partValue_long hl
  unfold toMillis
  rcases partValue_cases d.weeks with hw | hw
  · rcases partValue_cases d.days with hd | hd
    · rcases partValue_cases d.hours with hh | hh
      · rcases partValue_cases d.minutes with hm | hm
        · simp only [mem_cons, not_mem_nil, or_false] at hme
          rcases hme with rfl | rfl | rfl | rfl <;> simp_all
        · rw [hw, hd, hh, hm]
          rfl
      · rw [hw, hd, hh]
        rfl
    · rw [hw, hd]
      rfl
  · rw [hw]
    rfl

theorem errorsOnly_toMillis {p : Failure → Prop} (hn : p .hugeNumber) (hd : p .immeasurableDuration)
    (d : Duration) : ErrorsOnly p d.toMillis := by
  have hp : ∀ ds, ErrorsOnly p (partValue ds) := by
    intro ds
    unfold partValue
    split
    · exact .ok _
    · split
      · exact .error hn
      · exact .ok _
  refine .bind (hp _) fun _ => .bind (hp _) fun _ => .bind (hp _) fun _ => .bind (hp _) fun _ => ?_
  dsimp only
  split
  · exact .ok _
  · exact .error hd

theorem toMillis_exact (hl : ¬ d.HasLongNumber) (hw : d.HasWholeSeconds) (hb : 1000 * d.total < 2 ^ 53) :
    d.toMillis = .ok (1000 * d.total) := by
  have hp : ∀ part ∈ [d.weeks, d.days, d.hours, d.minutes], partValue part = .ok (count part) :=
    fun part hme => partValue_ok fun h => hl ⟨part, hme, h⟩
  simp only [forall_mem_cons, not_mem_nil, false_imp_iff, implies_true, and_true] at hp
  obtain ⟨hwe, hd, hh, hm⟩ := hp
  have hpa : d.total = count d.weeks * 7 * 86400 + count d.days * 86400 + count d.hours * 3600
      + count d.minutes * 60 + count (d.seconds.map Prod.fst) := by
    unfold total
    ring
  obtain ⟨tl, hr⟩ : ∃ tl, tl = count d.weeks * 7 * 86400 + count d.days * 86400 + count d.hours * 3600
      + count d.minutes * 60 := ⟨_, rfl⟩
  rw [hpa, ← hr, Nat.mul_comm] at hb ⊢
  have hs := represents_secondsValue hw (by omega)
  have hsu := (represents_ofNat (by omega : tl < 2 ^ 53)).addMagnitude hs (by omega)
  have hmi := (hsu.scaleMagnitude hb).roundMagnitude?
  simp only [toMillis, hwe, hd, hh, hm, bind, Except.bind, ← hr, hmi]
  rfl

/-! ### The clock -/

def IsPlaces (digits : List Char) : Prop := IsNumber digits ∧ 2 ≤ digits.length

/-- Hours, minutes and seconds, with minutes and seconds below sixty. -/
def Shows (text : String) (total : Nat) : Prop := ∃ h m s, text.toList = h ++ ':' :: (m ++ ':' :: s) ∧
  IsPlaces h ∧ IsPlaces m ∧ IsPlaces s ∧ numeral m < 60 ∧ numeral s < 60 ∧
  3600 * numeral h + 60 * numeral m + numeral s = total

theorem isNumber_toDigits (n : Nat) : IsNumber (Nat.toDigits 10 n) := ⟨Nat.toDigits_ne_nil, fun c hc => by
    rw [isDigit, digitValue?_of_isDigit (Nat.isDigit_of_mem_toDigits (by decide) (by decide) hc)]
    rfl⟩

theorem twoPlaces_natCast (n : Nat) : IsPlaces (twoPlaces n).toList ∧ numeral (twoPlaces n).toList = n := by
  have hd : toString (n : Int) = ofList (Nat.toDigits 10 n) := Nat.toString_eq_ofList_toDigits
  obtain ⟨hne, hn⟩ := isNumber_toDigits n
  rw [twoPlaces, hd, String.length_ofList]
  split
  · have hz : ("0" ++ ofList (Nat.toDigits 10 n)).toList = '0' :: Nat.toDigits 10 n := by
      simp
    have hl := length_pos_iff.mpr hne
    rw [hz]
    refine ⟨⟨⟨cons_ne_nil _ _, forall_mem_cons.mpr ⟨by decide, hn⟩⟩, ?_⟩, ?_⟩
    · rw [length_cons]
      omega
    · exact numeral_toDigits n
  · next hl =>
    rw [toList_ofList]
    exact ⟨⟨⟨hne, hn⟩, by omega⟩, numeral_toDigits n⟩

theorem clock_shows (total : Nat) : Shows (clock ((1000 * total : Nat) : Int)) total := by
  obtain ⟨hh, hho⟩ := twoPlaces_natCast (total / 3600)
  obtain ⟨hm, hmi⟩ := twoPlaces_natCast (total % 3600 / 60)
  obtain ⟨hs, hr⟩ := twoPlaces_natCast (total % 60)
  refine ⟨_, _, _, ?_, hh, hm, hs, ?_, ?_, ?_⟩
  · simp [clock, Int.fdiv_eq_ediv_of_nonneg, Int.fmod_eq_emod_of_nonneg]
  · omega
  · omega
  · omega

/-! ### Valid texts -/

theorem Spells.millisOf_eq {s : String} (h : Spells d s.toList) (ht : trim s = s) :
    millisOf (some s) = if d.years.isSome || d.months.isSome then .error (.calendarDuration s) else d.toMillis := by
  have hc : trimChars s.toList = s.toList := toList_ofList.symm.trans (congrArg String.toList ht)
  obtain ⟨hP, hT⟩ := h.ends
  have hb : (s.toList == ['P'] || s.toList == ['P', 'T']) = false := by
    rw [Bool.or_eq_false_iff, beq_eq_false_iff_ne, beq_eq_false_iff_ne]
    refine ⟨hP, fun hPT => hT ?_⟩
    rw [hPT]
    rfl
  simp [millisOf, hc, h.ofChars?_eq, hb]

/-- A valid text is refused just if it has years or months. Otherwise its length is exact, unless a number in it is too
    long to be read. -/
theorem millisOf_of_isValid (s : String) (htrim : trim s = s) (hvalid : isValid s = true) : ∃ d,
    (∀ d', Spells d' s.toList ↔ d' = d) ∧
    ((∃ failure, millisOf (some s) = .error failure ∧ failure.kind = .format) ↔ d.years.isSome ∨ d.months.isSome) ∧
    (d.years = none → d.months = none → (d.HasLongNumber → millisOf (some s) = .error .hugeNumber) ∧
      (¬ d.HasLongNumber → d.HasWholeSeconds → 1000 * d.total < 2 ^ 53 →
        millisOf (some s) = .ok (1000 * d.total) ∧ Shows (clock ((1000 * d.total : Nat) : Int)) d.total)) := by
  obtain ⟨d, hd⟩ := spells_of_isValid s htrim hvalid
  have hmillis := hd.millisOf_eq htrim
  refine ⟨d, fun d' => ⟨fun hd' => ?_, fun h => h ▸ hd⟩, ?_, ?_⟩
  · exact Option.some.inj (hd'.ofChars?_eq.symm.trans hd.ofChars?_eq)
  · rw [← Bool.or_eq_true]
    split at hmillis
    · next hcalendar => exact iff_of_true ⟨_, hmillis, rfl⟩ hcalendar
    · next hcalendar =>
      refine iff_of_false ?_ hcalendar
      rintro ⟨failure, herror, hkind⟩
      have hinternal : failure.kind = .internal :=
        errorsOnly_toMillis (p := fun f => f.kind = .internal) rfl rfl d failure (hmillis.symm.trans herror)
      exact absurd (hkind.symm.trans hinternal) (by decide)
  · intro hyears hmonths
    rw [hmillis, hyears, hmonths]
    exact ⟨toMillis_long, fun hlong hwhole hbound => ⟨toMillis_exact hlong hwhole hbound, clock_shows _⟩⟩

theorem millisOf_of_isValid_day : trim "P1DT1H01.0S" = "P1DT1H01.0S" ∧ isValid "P1DT1H01.0S" = true ∧
    millisOf (some "P1DT1H01.0S") = .ok 90001000 ∧ Shows (clock 90001000) 90001 := by
  have htrim : trim "P1DT1H01.0S" = "P1DT1H01.0S" := by decide +kernel
  have hvalid : isValid "P1DT1H01.0S" = true := by decide +kernel
  obtain ⟨d, hspells, -, hlength⟩ := millisOf_of_isValid _ htrim hvalid
  have hread : ofChars? "P1DT1H01.0S".toList
      = some { days := some ['1'], hours := some ['1'], seconds := some (['0', '1'], ['0']) } := by decide +kernel
  obtain rfl := Option.some.inj (((hspells d).mpr rfl).ofChars?_eq.symm.trans hread)
  refine ⟨htrim, hvalid, (hlength rfl rfl).2 ?_ ?_ (by decide)⟩
  · simp [HasLongNumber]
  · rintro _ ⟨⟩
    decide

/-- One day, written with many leading zeros, has no length. -/
theorem day_with_leading_zeros_unread : ∃ digits s, digits = replicate 4300 '0' ++ ['1'] ∧
    s = ofList ('P' :: (digits ++ ['D'])) ∧ trim s = s ∧ isValid s = true ∧
    Spells { days := some digits } s.toList ∧ 1000 * total { days := some digits } = 86400000 ∧
    millisOf (some s) = .error .hugeNumber := by
  obtain ⟨digits, hdigits, hnumber, hlength, hnumeral⟩ : ∃ digits, digits = replicate 4300 '0' ++ ['1'] ∧
      IsNumber digits ∧ 4300 < digits.length ∧ numeral digits = 1 := by
    refine ⟨_, rfl, ⟨concat_ne_nil _ _, fun c hc => ?_⟩, ?_, ?_⟩
    · rw [mem_append, mem_replicate, mem_singleton] at hc
      rcases hc with ⟨-, rfl⟩ | rfl <;> decide
    · rw [length_append, length_replicate]
      exact Nat.lt_succ_self _
    · rw [numeral_concat, numeral_zeros]
      rfl
  have hspells : Spells { days := some digits } (ofList ('P' :: (digits ++ ['D']))).toList := by
    rw [toList_ofList]
    exact .date rfl ⟨[], [], _, .missing, .missing, .number hnumber, rfl⟩
      ⟨[], [], [], .missing, .missing, .missing, rfl⟩ (concat_ne_nil _ _)
  have htrim : trim (ofList ('P' :: (digits ++ ['D']))) = ofList ('P' :: (digits ++ ['D'])) := by
    rw [trim, toList_ofList, trimChars, trimBy_eq_self]
    · rintro c ⟨⟩
      decide
    · intro c hc
      rw [← cons_append, getLast?_concat, Option.mem_some_iff] at hc
      rw [← hc]
      decide
  refine ⟨digits, _, hdigits, rfl, htrim, hspells.isValid _, hspells, by simp [total, count, hnumeral], ?_⟩
  rw [hspells.millisOf_eq htrim]
  exact toMillis_long ⟨_, mem_cons_of_mem _ mem_cons_self, digits, rfl, hlength⟩

end Duration

end ProcessForge
