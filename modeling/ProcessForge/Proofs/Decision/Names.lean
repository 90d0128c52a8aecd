import Mathlib.Data.List.Nodup
import Mathlib.Data.List.Perm.Subperm
import Mathlib.Data.List.Range
import ProcessForge.Proofs.Decision.Reading

/-! Names of script variables. Every name is its base, or its base with the least number behind it that makes
    it unused. The search for that number stops in time: as many names are tried as there are used ones,
    and one more. Hence the names of all columns are different. -/

namespace ProcessForge.Decision

open List Text

def numbered (base : String) (n : Nat) : String := base ++ toString n

theorem toList_numbered (base : String) (n : Nat) : (numbered base n).toList = base.toList ++ Nat.toDigits 10 n := by
  rw [numbered, String.toList_append, Nat.toString_eq_ofList_toDigits, String.toList_ofList]

/-- Different numbers make different names, since the digits read back as the number. -/
theorem numbered_injective (base : String) : Function.Injective (numbered base) := by
  intro i j h
  have hd : Nat.toDigits 10 i = Nat.toDigits 10 j := String.ofList_injective ((String.append_right_inj base).mp h)
  rw [← @Nat.ofDigitChars_ten_toDigits i, hd, Nat.ofDigitChars_ten_toDigits]

/-- The search stops at a number below which all are in use. It is not in use itself, or it is the last one
    that was tried. -/
theorem freshName_stops (used : List String) (base : String) : ∀ fuel counter, ∃ n,
    freshName used base fuel counter = numbered base n ∧ counter ≤ n ∧
      (∀ k, counter ≤ k → k < n → numbered base k ∈ used) ∧
      (numbered base n ∉ used ∨ n = counter + fuel)
  | 0, counter => ⟨counter, rfl, le_refl _, fun k hk hn => absurd hk (by omega), Or.inr rfl⟩
  | fuel + 1, counter => by
    by_cases hu : numbered base counter ∈ used
    · obtain ⟨n, hna, hle, hb, hs⟩ := freshName_stops used base fuel (counter + 1)
      refine ⟨n, ?_, by omega, ?_, ?_⟩
      · rw [← hna]
        exact if_pos (by simpa [numbered] using hu)
      · intro k hk hn
        rcases Nat.eq_or_lt_of_le hk with rfl | hk
        · exact hu
        · exact hb k hk hn
      · rcases hs with hf | hl
        · exact Or.inl hf
        · exact Or.inr (by omega)
    · refine ⟨counter, ?_, le_refl _, fun k hk hn => absurd hk (by omega), Or.inl hu⟩
      exact if_neg (by simpa [numbered] using hu)

theorem exists_numbered_not_mem (used : List String) (base : String) :
    ∃ n, n ≤ used.length ∧ numbered base (n + 1) ∉ used := by
  by_contra ha
  push Not at ha
  have hno : ((range (used.length + 1)).map fun n => numbered base (n + 1)).Nodup := by
    apply Nodup.map _ (nodup_range)
    intro i j hij
    have := numbered_injective base hij
    omega
  have hs : ((range (used.length + 1)).map fun n => numbered base (n + 1)) ⊆ used := by
    intro name hna
    obtain ⟨n, hn, rfl⟩ := mem_map.mp hna
    exact ha n (by simpa [Nat.lt_succ_iff] using hn)
  have hl := (subperm_of_subset hno hs).length_le
  rw [length_map, length_range] at hl
  omega

/-- A derived name is its base, if that is not in use, and else the base with the least positive number that
    makes it unused. -/
theorem deriveName_spec (used : List String) (ex : String) : deriveName used ex ∉ used ∧
    ((nameFor ex ∉ used ∧ deriveName used ex = nameFor ex) ∨
      (nameFor ex ∈ used ∧ ∃ n, 1 ≤ n ∧ deriveName used ex = numbered (nameFor ex) n ∧
        ∀ k, 1 ≤ k → k < n → numbered (nameFor ex) k ∈ used)) := by
  unfold deriveName
  by_cases hu : nameFor ex ∈ used
  · obtain ⟨n, hna, hl, hb, hs⟩ := freshName_stops used (nameFor ex) used.length 1
    have hf : numbered (nameFor ex) n ∉ used := by
      rcases hs with hf | rfl
      · exact hf
      · intro hla
        obtain ⟨k, hk, hn⟩ := exists_numbered_not_mem used (nameFor ex)
        rcases Nat.eq_or_lt_of_le hk with rfl | hk
        · exact hn (by rwa [Nat.add_comm])
        · exact hn (hb (k + 1) (by omega) (by omega))
    rw [if_pos (by simpa using hu), hna]
    exact ⟨hf, Or.inr ⟨hu, n, hl, rfl, hb⟩⟩
  · rw [if_neg (by simpa using hu)]
    exact ⟨hu, Or.inl ⟨hu, rfl⟩⟩

theorem length_deriveNames : ∀ (used expressions : List String),
    (deriveNames used expressions).length = expressions.length
  | _, [] => rfl
  | used, ex :: tl => by
    rw [deriveNames, length_cons, length_cons, length_deriveNames]

theorem deriveNames_fresh : ∀ (used expressions : List String),
    (∀ name ∈ deriveNames used expressions, name ∉ used) ∧ (deriveNames used expressions).Nodup
  | _, [] => ⟨fun _ h => by simp [deriveNames] at h, nodup_nil⟩
  | used, ex :: tl => by
    obtain ⟨ho, hno⟩ := deriveNames_fresh (used ++ [deriveName used ex]) tl
    refine ⟨?_, nodup_cons.mpr ⟨?_, hno⟩⟩
    · intro name hn
      rcases mem_cons.mp hn with rfl | hn
      · exact (deriveName_spec used ex).1
      · exact fun hu => ho name hn (mem_append_left _ hu)
    · exact fun hm => ho _ hm (by simp)

theorem getElem?_deriveNames : ∀ (used expressions : List String) (i : Nat) (ex : String),
    expressions[i]? = some ex → (deriveNames used expressions)[i]?
      = some (deriveName (used ++ (deriveNames used expressions).take i) ex)
  | used, f :: tl, 0, ex, h => by
    obtain rfl : f = ex := by simpa using h
    simp [deriveNames]
  | used, f :: tl, i + 1, ex, h => by
    have hi := getElem?_deriveNames (used ++ [deriveName used f]) tl i ex (by simpa using h)
    rw [deriveNames, getElem?_cons_succ, hi, take_succ_cons, append_assoc, singleton_append]

/-! ### The bases of names -/

/-- The last segment of a dotted path. -/
def IsLastSegment (path segment : List Char) : Prop :=
  '.' ∉ segment ∧ (segment = path ∨ ∃ front, path = front ++ '.' :: segment)

/-- The base of the names that are made of a segment. -/
def IsBase (segment : List Char) (base : String) : Prop :=
  (segment = [] ∧ base = "value") ∨
    (segment ≠ [] ∧ base.toList = segment.map fun c => if isNameChar c then c else '_')

/-- Texts of letters, digits and underscores. -/
def IsNameText (name : String) : Prop := name ≠ "" ∧ ∀ c ∈ name.toList, isNameChar c = true

/-- The base, if it is unused, and else the base with the least positive number that makes it unused. -/
def IsLeastUnused (used : List String) (base name : String) : Prop := name ∉ used ∧
  (name = base ∨ base ∈ used ∧ ∃ n, 1 ≤ n ∧ name = numbered base n ∧ ∀ k, 1 ≤ k → k < n → numbered base k ∈ used)

theorem isBase_nameFor (ex : String) : ∃ segment,
    IsLastSegment (trimChars ex.toList) segment ∧ IsBase segment (nameFor ex) := by
  refine ⟨afterLast '.' (trimChars ex.toList), ⟨not_mem_afterLast _ _, afterLast_cases _ _⟩, ?_⟩
  rw [nameFor]
  split
  · next he => exact .inl ⟨isEmpty_iff.mp he, rfl⟩
  · next he => exact .inr ⟨fun hn => he (by simp [hn]), String.toList_ofList⟩

theorem isNameText_nameFor (ex : String) : IsNameText (nameFor ex) := by
  obtain ⟨segment, -, ⟨-, hb⟩ | ⟨hs, hb⟩⟩ := isBase_nameFor ex
  · rw [hb]
    exact ⟨by decide, forall_mem_of_all (by decide)⟩
  · refine ⟨fun he => hs (by simpa [he] using hb.symm), fun c hc => ?_⟩
    rw [hb] at hc
    obtain ⟨d, -, rfl⟩ := mem_map.mp hc
    split
    · assumption
    · rfl

theorem isNameText_numbered {base : String} (h : IsNameText base) (n : Nat) : IsNameText (numbered base n) := by
  refine ⟨fun he => h.1 (String.append_eq_empty_iff.mp he).1, fun c hc => ?_⟩
  rw [toList_numbered] at hc
  exact (mem_append.mp hc).elim (h.2 c) fun hd =>
    isNameChar_of_isDigit (Nat.isDigit_of_mem_toDigits (by decide) (by decide) hd)

theorem isNameText_deriveName (used : List String) (ex : String) : IsNameText (deriveName used ex) := by
  obtain ⟨-, ⟨-, hd⟩ | ⟨-, n, -, hd, -⟩⟩ := deriveName_spec used ex
  · rw [hd]
    exact isNameText_nameFor ex
  · rw [hd]
    exact isNameText_numbered (isNameText_nameFor ex) n

/-- The names of all expressions are different. Each is the least unused one of its base, when the names
    in front of it are in use. -/
theorem derived_names_least_unused (used expressions : List String) :
    (deriveNames used expressions).length = expressions.length ∧ (deriveNames used expressions).Nodup ∧
    (∀ name ∈ deriveNames used expressions, IsNameText name) ∧ ∀ i ex, expressions[i]? = some ex → ∃ segment base name,
      IsLastSegment (trimChars ex.toList) segment ∧ IsBase segment base ∧
      (deriveNames used expressions)[i]? = some name ∧
      IsLeastUnused (used ++ (deriveNames used expressions).take i) base name := by
  have hex : ∀ i ex, expressions[i]? = some ex → _ := getElem?_deriveNames used expressions
  refine ⟨length_deriveNames _ _, (deriveNames_fresh _ _).2, fun name hn => ?_, fun i ex hi => ?_⟩
  · obtain ⟨i, hi⟩ := mem_iff_getElem?.mp hn
    have hl : i < expressions.length := length_deriveNames used expressions ▸ (List.getElem?_eq_some_iff.mp hi).1
    have hd := hi.symm.trans (hex i _ (getElem?_eq_getElem hl))
    rw [Option.some.inj hd]
    exact isNameText_deriveName _ _
  · obtain ⟨segment, hs, hb⟩ := isBase_nameFor ex
    obtain ⟨hu, hd⟩ := deriveName_spec (used ++ (deriveNames used expressions).take i) ex
    exact ⟨segment, _, _, hs, hb, hex i ex hi, hu, hd.imp And.right id⟩

end ProcessForge.Decision
