import ProcessForge.Proofs.ClassModel.Blocks

/-! Lines that open a class. Outside of blocks such a line declares its class. Inside of a class it is refused, so that
    a brace that was forgotten there is found. Inside of an enumeration it counts as a value, and its class is lost
    unless another line declares it. -/

namespace ProcessForge.ClassModel

open List OrderedMap Text

variable {name keyword s : String} {lines : List (List Char)} {line : List Char} {r r' : Reading} {m : ClassModel}

theorem Opens.not_field (h : Opens keyword line name) (field : ClassField) : ¬IsField line field := by
  rintro ⟨hn, hl⟩
  have hb : ∀ (f : List Char) {w : String}, IsName w → (f ++ w.toList).getLast? ≠ some '\x7b' := by
    intro f w hw hla
    rw [getLast?_append, getLast?_eq_some_getLast hw.ne_nil] at hla
    exact absurd (hw.2 _ (getLast_mem hw.ne_nil)) (by rw [Option.some.inj hla]; decide)
  split at hl
  · exact hb [] hn.1 (hl ▸ h.getLast?)
  · obtain ⟨ht, gap, sp, -, -, rfl⟩ := hl
    have hla := h.getLast?
    rw [← cons_append, ← append_assoc, ← append_assoc] at hla
    exact hb _ ht.1 hla

theorem Opens.ne_closing (h : Opens keyword line name) : line ≠ Part.closing := by
  rintro rfl
  exact absurd h.getLast? (by decide)

theorem mem_keys_putNew {α : Type} {m : OrderedMap α} {key k : String} {v : α} :
    k ∈ (m.putNew key v).keys ↔ k ∈ m.keys ∨ k = key := by
  rw [putNew]
  split
  · next hh => exact ⟨Or.inl, fun h => h.elim id fun heq => heq ▸ has_iff.mp hh⟩
  · simp [OrderedMap.keys]

/-! ### One line -/

/-- The class that is open is declared. -/
def IsDeclared (r : Reading) : Prop := ∀ name, r.block = .ofClass name → name ∈ r.model.classes.keys

/-- A line declares a class just if it opens it outside of blocks. -/
theorem step_declares (hd : IsDeclared r) (ht : trimChars line = line) (h : step r line = .ok r') :
    IsDeclared r' ∧ ∀ name, name ∈ r'.model.classes.keys ↔
      name ∈ r.model.classes.keys ∨ r.block = .none ∧ Opens "class" line name := by
  obtain ⟨block, m⟩ := r
  cases block with
  | none =>
    rcases step_outside_iff.mp h with ⟨name, ho, rfl⟩ | ⟨name, ho, rfl⟩ | ⟨c, hc, rfl⟩
    · have hk : ∀ k, k ∈ (openClass m name).classes.keys ↔ k ∈ m.classes.keys ∨ k = name := fun k => mem_keys_putNew
      refine ⟨?_, fun other => ?_⟩
      · rintro other ⟨⟩
        exact (hk name).mpr (.inr rfl)
      · have heq : other = name ↔ Opens "class" line other := by
          rw [← readOpening?_iff, readOpening?_iff.mpr ho, Option.some.injEq, eq_comm]
        simp [hk, heq]
    · have hn : ∀ other, ¬Opens "class" line other := by
        obtain ⟨gap, sp, -, -, -, -, rfl⟩ := ho
        exact fun other => not_opens_of_head (c := 'e') rfl (by decide) (by decide)
      exact ⟨(by rintro _ ⟨⟩), fun other => by simp [hn, openEnum]⟩
    · exact ⟨(by rintro _ ⟨⟩), fun other => by simp [hc.not_opens, addComposition]⟩
  | ofClass o =>
    have ho : o ∈ m.classes.keys := hd o rfl
    rcases (step_class_iff ht).mp h with ⟨-, rfl⟩ | ⟨f, -, rfl⟩
    · exact ⟨(by rintro _ ⟨⟩), fun other => by simp⟩
    · have hk : ∀ k, k ∈ (addField m o f).classes.keys ↔ k ∈ m.classes.keys := fun k =>
        mem_keys_put.trans ⟨fun h => h.elim id (· ▸ ho), .inl⟩
      refine ⟨?_, fun other => by simp [hk]⟩
      rintro other ⟨⟩
      exact (hk o).mpr ho
  | ofEnum o =>
    rcases step_enum_iff.mp h with ⟨-, rfl⟩ | ⟨-, rfl⟩
    · exact ⟨(by rintro _ ⟨⟩), fun other => by simp⟩
    · have hk : (addLine m o line).classes = m.classes := by
        unfold addLine
        split <;> rfl
      exact ⟨(by rintro _ ⟨⟩), fun other => by simp [hk]⟩

/-! ### All lines -/

/-- Where a line stands: the lines in front of it, and what was read when they are done. -/
def ReadAt (start : Reading) (lines front : List (List Char)) (line : List Char) (r : Reading) : Prop :=
  (∃ back, lines = front ++ line :: back) ∧ front.foldlM step start = .ok r

theorem run_declares {start : Reading} (hd : IsDeclared start) (ht : ∀ line ∈ lines, trimChars line = line)
    (h : lines.foldlM step start = .ok r') : ∀ name, name ∈ r'.model.classes.keys ↔ name ∈ start.model.classes.keys ∨
        ∃ fr line r, ReadAt start lines fr line r ∧ r.block = .none ∧ Opens "class" line name := by
  induction lines generalizing start with
  | nil =>
    cases h
    refine fun name => ⟨.inl, fun h => h.elim id ?_⟩
    rintro ⟨fr, line, r, ⟨⟨back, hl⟩, -⟩, -⟩
    simp at hl
  | cons f tl ih =>
    rw [foldlM_cons] at h
    cases hs : step start f with
    | error x => rw [hs] at h; cases h
    | ok next =>
      obtain ⟨hd', hk⟩ := step_declares hd (ht f mem_cons_self) hs
      rw [hs] at h
      intro name
      rw [ih hd' (fun line hl => ht line (mem_cons_of_mem _ hl)) h name, hk name, or_assoc]
      refine or_congr_right ⟨?_, ?_⟩
      · rintro (⟨hb, ho⟩ | ⟨fr, line, r, ⟨⟨back, rfl⟩, hf⟩, hb, ho⟩)
        · exact ⟨[], f, start, ⟨⟨tl, rfl⟩, rfl⟩, hb, ho⟩
        · exact ⟨f :: fr, line, r, ⟨⟨back, rfl⟩, (foldlM_step_cons hs fr).trans hf⟩, hb, ho⟩
      · rintro ⟨fr, line, r, ⟨⟨back, hl⟩, hf⟩, hb, ho⟩
        cases fr with
        | nil =>
          obtain ⟨rfl, rfl⟩ := cons.inj hl
          cases hf
          exact .inl ⟨hb, ho⟩
        | cons c fr =>
          obtain ⟨rfl, rfl⟩ := cons.inj hl
          rw [foldlM_step_cons hs] at hf
          exact .inr ⟨fr, line, r, ⟨⟨back, rfl⟩, hf⟩, hb, ho⟩

theorem run_of_ofDiagram (h : ofDiagram s = .ok m) : (significantLines s).foldlM step {} = .ok ⟨.none, m⟩ := by
  obtain ⟨ps, hp, rfl⟩ := (ofDiagram_ok_iff s m).mp h
  exact run_of_spells hp fun line => trimmed_of_mem_significantLines

/-- A line that opens a block inside of a class ends the reading. -/
theorem error_of_opens_inside {f : List (List Char)} {b : String}
    (hr : ReadAt {} (significantLines s) f line r) (hb : r.block = .ofClass name)
    (ho : Opens keyword line b) : ∃ failure, ofDiagram s = .error failure := by
  cases h : ofDiagram s with
  | error failure => exact ⟨failure, rfl⟩
  | ok m =>
    obtain ⟨⟨back, hl⟩, hf⟩ := hr
    obtain ⟨block, model⟩ := r
    obtain rfl : block = .ofClass name := hb
    have ht : trimChars line = line := trimmed_of_mem_significantLines (s := s) (by simp [hl])
    have hru := run_of_ofDiagram h
    rw [hl, foldlM_append, hf] at hru
    change (line :: back).foldlM step _ = _ at hru
    rw [foldlM_cons] at hru
    cases hs : step ⟨.ofClass name, model⟩ line with
    | error failure => rw [hs] at hru; cases hru
    | ok next =>
      rcases (step_class_iff ht).mp hs with ⟨hc, -⟩ | ⟨fd, hfi, -⟩
      · exact absurd hc ho.ne_closing
      · exact absurd hfi (ho.not_field fd)

/-- The classes of a diagram are those that a line opens outside of enumerations. A line that opens a block inside of
    a class is a fault of the diagram. -/
theorem classes_opened_outside_enums (s : String) :
    (∀ m, ofDiagram s = .ok m → ∀ name, m.classes.has name = true ↔ ∃ front line r,
      ReadAt {} (significantLines s) front line r ∧ Opens "class" line name ∧ ∀ owner, r.block ≠ .ofEnum owner) ∧
    ∀ front line r owner keyword name, ReadAt {} (significantLines s) front line r → r.block = .ofClass owner →
      Opens keyword line name → ∃ failure, ofDiagram s = .error failure ∧ failure.kind = .format := by
  refine ⟨fun m h name => ?_, fun front line r owner keyword name hr hb ho => ?_⟩
  · have hk := run_declares (by rintro _ ⟨⟩) (fun line => trimmed_of_mem_significantLines) (run_of_ofDiagram h) name
    rw [has_iff, hk]
    refine (or_iff_right (by simp [OrderedMap.keys])).trans ⟨?_, ?_⟩
    · rintro ⟨front, line, r, hr, hb, ho⟩
      exact ⟨front, line, r, hr, ho, fun owner => by simp [hb]⟩
    · rintro ⟨front, line, r, hr, ho, hn⟩
      refine ⟨front, line, r, hr, ?_, ho⟩
      cases hb : r.block with
      | none => rfl
      | ofClass owner =>
        obtain ⟨failure, hf⟩ := error_of_opens_inside hr hb ho
        rw [h] at hf
        cases hf
      | ofEnum owner => exact absurd hb (hn owner)
  · obtain ⟨failure, hf⟩ := error_of_opens_inside hr hb ho
    exact ⟨failure, hf, ofDiagram_error_format hf⟩

theorem classes_opened_outside_enums_line : Opens "class" "class Line \x7b".toList "Line" ∧
    ∃ failure, ofDiagram "class Order \x7b\nclass Line \x7b\n\x7d\n" = .error failure ∧ failure.kind = .format := by
  have ho : Opens "class" "class Line \x7b".toList "Line" := readOpening?_iff.mp (by decide +kernel)
  exact ⟨ho, (classes_opened_outside_enums _).2 ["class Order \x7b".toList] _ ⟨.ofClass "Order", openClass {} "Order"⟩
    "Order" "class" "Line" ⟨⟨["\x7d".toList], by decide +kernel⟩, rfl⟩ rfl ho⟩

/-- An enumeration whose brace was forgotten takes in the class behind it. -/
theorem class_taken_for_value : Opens "class" "class Order \x7b".toList "Order" ∧
    ofDiagram "enum Color \x7b\nRED\nclass Order \x7b\n\x7d\n" = .ok { enums := [("Color", ["RED", "class"])] } :=
  ⟨readOpening?_iff.mp (by decide +kernel), by decide +kernel⟩

end ProcessForge.ClassModel
