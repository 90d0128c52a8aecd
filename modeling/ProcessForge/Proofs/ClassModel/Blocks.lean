import Mathlib.Data.List.Forall2
import ProcessForge.Proofs.ClassModel.Lines
import ProcessForge.Proofs.OrderedMap

/-! Blocks of class diagrams. A diagram is a row of parts: classes with fields, enumerations with values, and
    compositions. Main statement: reading the lines of a diagram succeeds just if they spell such a row, and the
    model groups what the parts say under their names.

        outside ── class X {  ──▶ class X ── field ↺ ── } ──▶ outside
        outside ── enum E {   ──▶ enum E  ── any   ↺ ── } ──▶ outside
        outside ── composition ↺ -/

namespace ProcessForge.ClassModel

open List OrderedMap Text

variable {name : String} {lines p : List (List Char)} {m : ClassModel} {line : List Char} {r : Reading}

/-! ### Groups -/

section

variable {β : Type} {blocks : List (String × List β)}

theorem eraseDups_of_nodup {names : List String} (h : names.Nodup) : names.eraseDups = names := by
  induction names with
  | nil => rfl
  | cons name rest ih =>
    obtain ⟨hn, hr⟩ := nodup_cons.mp h
    have hf : (rest.filter fun b => !b == name) = rest := by
      refine filter_eq_self.mpr fun b ho => ?_
      simpa using fun heq : b = name => hn (heq ▸ ho)
    rw [eraseDups_cons, hf, ih hr]

def saidOf (blocks : List (String × List β)) (name : String) : List β :=
  blocks.flatMap fun block => if block.1 = name then block.2 else []

/-- Blocks by name, in the order in which the names first appear; blocks with the same name add to each other. -/
def grouped (blocks : List (String × List β)) : OrderedMap (List β) :=
  (blocks.map Prod.fst).eraseDups.map fun name => (name, saidOf blocks name)

theorem keys_grouped (blocks : List (String × List β)) : (grouped blocks).keys = (blocks.map Prod.fst).eraseDups := by
  simp [grouped, OrderedMap.keys, Function.comp_def]

theorem saidOf_append (blocks : List (String × List β)) (name : String) (values : List β) (b : String) :
    saidOf (blocks ++ [(name, values)]) b = saidOf blocks b ++ if name = b then values else [] := by
  simp [saidOf]

theorem saidOf_of_not_mem (h : name ∉ blocks.map Prod.fst) : saidOf blocks name = [] := by
  rw [saidOf, flatMap_eq_nil_iff]
  intro block hb
  rw [if_neg]
  rintro rfl
  exact h (mem_map_of_mem hb)

theorem value?_map_of_mem (g : String → β) {key : String} : ∀ {ns : List String}, key ∈ ns →
    value? (ns.map fun name => (name, g name)) key = some (g key)
  | name :: rest, h => by
    rw [map_cons, value?]
    by_cases hn : name = key
    · simp [hn]
    · have hr : key ∈ rest := (mem_cons.mp h).resolve_left (Ne.symm hn)
      simpa [hn] using value?_map_of_mem g hr

theorem put_map_of_mem (g : String → β) {key : String} (v : β) : ∀ {ns : List String}, ns.Nodup →
    key ∈ ns → put (ns.map fun name => (name, g name)) key v
      = ns.map fun name => (name, if name = key then v else g name)
  | name :: rest, hn, h => by
    obtain ⟨hna, hr⟩ := nodup_cons.mp hn
    rw [map_cons, put]
    by_cases hk : name = key
    · subst hk
      have ho : ∀ b ∈ rest, (b, if b = name then v else g b) = (b, g b) := by
        intro b ho
        rw [if_neg]
        rintro rfl
        exact hna ho
      simp [map_congr_left ho]
    · have hm : key ∈ rest := (mem_cons.mp h).resolve_left (Ne.symm hk)
      simpa [hk] using put_map_of_mem g v hr hm

theorem grouped_open (blocks : List (String × List β)) (name : String) :
    grouped (blocks ++ [(name, [])]) = (grouped blocks).putNew name [] := by
  have hs : saidOf (blocks ++ [(name, [])]) = saidOf blocks := by
    funext other
    simp [saidOf_append]
  have hh : (grouped blocks).has name = decide (name ∈ blocks.map Prod.fst) := by
    rw [Bool.eq_iff_iff, decide_eq_true_iff, ← mem_eraseDups, ← keys_grouped]
    simp [has, OrderedMap.keys]
  rw [putNew, hh, grouped, hs, map_append, map_singleton, eraseDups_append_singleton]
  by_cases hm : name ∈ blocks.map Prod.fst
  · rw [if_pos hm, if_pos (by simpa using hm), grouped]
  · rw [if_neg hm, if_neg (by simpa using hm), map_append, map_singleton, saidOf_of_not_mem hm, grouped]

theorem value?_grouped_last (blocks : List (String × List β)) (name : String) (values : List β) :
    (grouped (blocks ++ [(name, values)])).value? name = some (saidOf blocks name ++ values) := by
  rw [grouped, value?_map_of_mem _ (by simp), saidOf_append, if_pos rfl]

theorem grouped_add (blocks : List (String × List β)) (name : String) (values : List β) (v : β) :
    grouped (blocks ++ [(name, values ++ [v])])
      = (grouped (blocks ++ [(name, values)])).put name (saidOf blocks name ++ values ++ [v]) := by
  have hn : (blocks ++ [(name, values ++ [v])]).map Prod.fst = (blocks ++ [(name, values)]).map Prod.fst := by
    simp
  rw [grouped, hn]
  refine Eq.trans ?_ (put_map_of_mem _ _ (nodup_eraseDups _) (by simp)).symm
  refine map_congr_left fun b _ => ?_
  rw [saidOf_append, saidOf_append]
  by_cases ho : b = name
  · simp [ho]
  · simp [ho, Ne.symm ho]

theorem grouped_of_nodup (h : (blocks.map Prod.fst).Nodup) : grouped blocks = blocks := by
  rw [grouped, eraseDups_of_nodup h]
  induction blocks with
  | nil => rfl
  | cons block tl ih =>
    obtain ⟨name, values⟩ := block
    obtain ⟨hn, hr⟩ := nodup_cons.mp h
    have ho : ∀ other ∈ tl.map Prod.fst, (other, saidOf ((name, values) :: tl) other) = (other, saidOf tl other) := by
      intro other ho
      have hne : name ≠ other := fun heq => hn (heq ▸ ho)
      simp [saidOf, hne]
    rw [map_cons, map_cons, map_congr_left ho, ih hr]
    have hf : saidOf ((name, values) :: tl) name = values ++ saidOf tl name := by simp [saidOf]
    rw [hf, saidOf_of_not_mem hn, append_nil]

theorem forall_grouped {p : String → Prop} {q : β → Prop} {blocks : List (String × List β)}
    (h : ∀ block ∈ blocks, p block.1 ∧ ∀ v ∈ block.2, q v) :
    ∀ group ∈ grouped blocks, p group.1 ∧ ∀ v ∈ group.2, q v := by
  intro group hg
  obtain ⟨name, hn, rfl⟩ := mem_map.mp hg
  obtain ⟨block, hb, rfl⟩ := mem_map.mp (mem_eraseDups.mp hn)
  refine ⟨(h block hb).1, fun v hv => ?_⟩
  obtain ⟨b, ho, hv⟩ := mem_flatMap.mp hv
  split at hv
  · exact (h b ho).2 v hv
  · cases hv

end

/-! ### Parts -/

/-- A part of a diagram. -/
inductive Part where
  | ofClass (name : String) (fields : List ClassField)
  | ofEnum (name : String) (values : List String)
  | ofComposition (composition : Composition)

namespace Part

def classBlock? : Part → Option (String × List ClassField)
  | ofClass name fields => some (name, fields)
  | _ => none

def enumBlock? : Part → Option (String × List String)
  | ofEnum name values => some (name, values)
  | _ => none

def composition? : Part → Option Composition
  | ofComposition composition => some composition
  | _ => none

def closing : List Char := ['\x7d']

/-- The lines with which a part is written. -/
inductive Written : Part → List (List Char) → Prop
  | ofClass {opening : List Char} {name : String} {inner : List (List Char)} {fields : List ClassField}
      (hopening : Opens "class" opening name) (hinner : Forall₂ IsField inner fields) :
      Written (.ofClass name fields) (opening :: (inner ++ [closing]))
  | ofEnum {opening : List Char} {name : String} {inner : List (List Char)}
      (hopening : Opens "enum" opening name) (hinner : ∀ line ∈ inner, line ≠ closing) :
      Written (.ofEnum name (inner.filterMap lineValue?)) (opening :: (inner ++ [closing]))
  | ofComposition {line : List Char} {composition : Composition} (hline : IsComposition line composition) :
      Written (.ofComposition composition) [line]

end Part

def named (groups : OrderedMap (List ClassField)) : OrderedMap ClassDef :=
  groups.map fun group => (group.1, { name := group.1, fields := group.2 })

/-- The model that parts describe: classes and enumerations in the order in which they first appear, each with all
    that its parts say, and the compositions. -/
def modelOf (parts : List Part) : ClassModel where
  classes := named (grouped (parts.filterMap Part.classBlock?))
  enums := grouped (parts.filterMap Part.enumBlock?)
  compositions := parts.filterMap Part.composition?

/-- Lines that are the lines of parts, one after the other. -/
def Spells (parts : List Part) (lines : List (List Char)) : Prop :=
  ∃ pieces, Forall₂ Part.Written parts pieces ∧ lines = pieces.flatten

theorem Spells.nil : Spells [] [] := ⟨[], .nil, rfl⟩

variable {parts : List Part} {part : Part} {keyword s : String} {r' : Reading} {x : Failure}

theorem Spells.append (h : Spells parts lines) (hpa : part.Written p) : Spells (parts ++ [part]) (lines ++ p) := by
  obtain ⟨ps, hp, rfl⟩ := h
  exact ⟨ps ++ [p], rel_append hp (.cons hpa .nil), by simp⟩

/-! ### What a step does to the model -/

theorem putNew_named (groups : OrderedMap (List ClassField)) (name : String) :
    (named groups).putNew name { name := name } = named (groups.putNew name []) := by
  have hh : (named groups).has name = groups.has name := by
    simp [named, has, any_map, Function.comp_def]
  rw [putNew, putNew, hh]
  split
  · rfl
  · simp [named]

theorem put_named (name : String) (fields : List ClassField) : ∀ groups : OrderedMap (List ClassField),
    (named groups).put name { name := name, fields := fields } = named (groups.put name fields)
  | [] => rfl
  | (b, old) :: tl => by
    have ih := put_named name fields tl
    by_cases hn : b = name
    · simp [named, put, hn]
    · simpa [named, put, hn] using ih

theorem value?_named (name : String) : ∀ groups : OrderedMap (List ClassField),
    (named groups).value? name = (groups.value? name).map fun fields => { name := name, fields := fields }
  | [] => rfl
  | (b, fields) :: tl => by
    have ih := value?_named name tl
    by_cases hn : b = name
    · simp [named, value?, hn]
    · simpa [named, value?, hn] using ih

theorem openClass_modelOf (parts : List Part) (name : String) :
    openClass (modelOf parts) name = modelOf (parts ++ [.ofClass name []]) := by
  simp [openClass, modelOf, filterMap_append, filterMap_cons, Part.classBlock?, Part.enumBlock?, Part.composition?,
    grouped_open, putNew_named]

theorem openEnum_modelOf (parts : List Part) (name : String) :
    openEnum (modelOf parts) name = modelOf (parts ++ [.ofEnum name []]) := by
  simp [openEnum, modelOf, filterMap_append, filterMap_cons, Part.classBlock?, Part.enumBlock?, Part.composition?,
    grouped_open]

theorem addField_modelOf (parts : List Part) (name : String) (fs : List ClassField) (f : ClassField) :
    addField (modelOf (parts ++ [.ofClass name fs])) name f = modelOf (parts ++ [.ofClass name (fs ++ [f])]) := by
  simp [addField, fieldsOf, modelOf, filterMap_append, filterMap_cons, Part.classBlock?, Part.enumBlock?,
    Part.composition?, grouped_add, value?_named, value?_grouped_last, put_named]

theorem addValue_modelOf (parts : List Part) (name : String) (values : List String) (v : String) :
    addValue (modelOf (parts ++ [.ofEnum name values])) name v = modelOf (parts ++ [.ofEnum name (values ++ [v])]) := by
  simp [addValue, modelOf, filterMap_append, filterMap_cons, Part.classBlock?, Part.enumBlock?, Part.composition?,
    grouped_add, value?_grouped_last]

/-- A line of an enumeration, with or without a value. -/
def addLine (m : ClassModel) (name : String) (line : List Char) : ClassModel :=
  match lineValue? line with
  | some value => addValue m name value
  | none => m

theorem addLine_modelOf (parts : List Part) (name : String) (t : List (List Char)) (line : List Char) :
    addLine (modelOf (parts ++ [.ofEnum name (t.filterMap lineValue?)])) name line
      = modelOf (parts ++ [.ofEnum name ((t ++ [line]).filterMap lineValue?)]) := by
  cases hv : lineValue? line with
  | none => simp [addLine, hv, filterMap_append]
  | some v => simp [addLine, hv, filterMap_append, addValue_modelOf]

def addComposition (m : ClassModel) (composition : Composition) : ClassModel :=
  { m with compositions := m.compositions ++ [composition] }

theorem addComposition_modelOf (parts : List Part) (composition : Composition) :
    addComposition (modelOf parts) composition = modelOf (parts ++ [.ofComposition composition]) := by
  simp [addComposition, modelOf, filterMap_append, filterMap_cons, Part.classBlock?, Part.enumBlock?, Part.composition?]

/-! ### One step -/

theorem closing_not_field (field : ClassField) : ¬IsField Part.closing field := by
  rintro ⟨hn, hl⟩
  have hw : isWord '\x7d' := by
    refine hn.1.2 _ (mem_of_mem_head? ?_)
    obtain ⟨c, cs, hc⟩ := exists_cons_of_ne_nil hn.1.ne_nil
    have hh : Part.closing.head? = field.name.toList.head? := by
      split at hl
      · rw [hl]
      · obtain ⟨-, gap, sp, -, -, heq⟩ := hl
        rw [heq, hc]
        rfl
    exact hh.symm
  exact absurd hw (by decide)

theorem step_class_iff (ht : trimChars line = line) : step ⟨.ofClass name, m⟩ line = .ok r ↔
      line = Part.closing ∧ r = ⟨.none, m⟩ ∨
      ∃ field, IsField line field ∧ r = ⟨.ofClass name, addField m name field⟩ := by
  rw [step]
  by_cases hc : line = Part.closing
  · subst hc
    have hf := closing_not_field
    simp only [Part.closing] at hf ⊢
    simp [hf, eq_comm]
  · have hb : (line == ['\x7d']) = false := beq_eq_false_iff_ne.mpr hc
    simp only [hb]
    cases hr : readField? line with
    | some field =>
      have hl := (readField?_iff ht).mp hr
      have hon : ∀ b, IsField line b → b = field := fun b ho =>
        Option.some.inj (((readField?_iff ht).mpr ho).symm.trans hr)
      constructor
      · intro h
        exact Or.inr ⟨field, hl, (Except.ok.inj h).symm⟩
      · rintro (⟨heq, -⟩ | ⟨b, ho, rfl⟩)
        · exact absurd heq hc
        · simp [hon b ho]
    | none =>
      have hn : ∀ field, ¬IsField line field := fun field hl => by
        rw [(readField?_iff ht).mpr hl] at hr
        cases hr
      simp [hc, hn]

theorem step_enum_iff : step ⟨.ofEnum name, m⟩ line = .ok r ↔
      line = Part.closing ∧ r = ⟨.none, m⟩ ∨ line ≠ Part.closing ∧ r = ⟨.ofEnum name, addLine m name line⟩ := by
  rw [step]
  by_cases hc : line = Part.closing
  · subst hc
    simp [Part.closing, eq_comm]
  · have hb : (line == ['\x7d']) = false := beq_eq_false_iff_ne.mpr hc
    simp only [hb, firstToken?_eq, addLine]
    cases lineValue? line <;> simp [hc, eq_comm]

theorem not_opens_of_head {c : Char} (hl : line.head? = some c)
    (hk : keyword.toList.head?.all (· != c)) (hn : keyword.toList ≠ []) : ¬Opens keyword line name := by
  rintro ⟨gap, sp, -, -, -, -, rfl⟩
  obtain ⟨d, ds, hd⟩ := exists_cons_of_ne_nil hn
  rw [hd] at hl hk
  obtain rfl : d = c := by simpa using hl
  simp at hk

theorem Opens.getLast? (h : Opens keyword line name) : line.getLast? = some '\x7b' := by
  obtain ⟨gap, sp, -, -, -, -, rfl⟩ := h
  simp [getLast?_append]

theorem IsComposition.not_opens {composition : Composition} (h : IsComposition line composition)
    (keyword name : String) : ¬Opens keyword line name := by
  intro ho
  have hl := ho.getLast?
  obtain ⟨-, hp, gap, count, sp, count', one, b, -, -, -, -, -, -, rfl⟩ := h
  obtain ⟨init, c, hc⟩ : ∃ init c, composition.part.toList = init ++ [c] :=
    ⟨_, _, (dropLast_concat_getLast hp.ne_nil).symm⟩
  obtain rfl : c = '\x7b' := by simpa [hc, getLast?_cons] using hl
  exact absurd (hp.2 '\x7b' (by rw [hc]; simp)) (by decide)

theorem step_outside_iff : step ⟨.none, m⟩ line = .ok r ↔
    (∃ name, Opens "class" line name ∧ r = ⟨.ofClass name, openClass m name⟩) ∨
    (∃ name, Opens "enum" line name ∧ r = ⟨.ofEnum name, openEnum m name⟩) ∨
    ∃ composition, IsComposition line composition ∧ r = ⟨.none, addComposition m composition⟩ := by
  have hd : ∀ {name other}, Opens "enum" line name → ¬Opens "class" line other := by
    rintro name other ⟨gap, sp, -, -, -, -, rfl⟩
    exact not_opens_of_head (c := 'e') rfl (by decide) (by decide)
  simp only [step, ← readOpening?_iff, ← readComposition?_iff] at hd ⊢
  have hc : ∀ {composition keyword name}, readComposition? line = some composition →
      readOpening? keyword line ≠ some name := by
    intro composition keyword name hr hop
    exact (readComposition?_iff.mp hr).not_opens keyword name (readOpening?_iff.mp hop)
  cases hcl : readOpening? "class" line with
  | some name =>
    have he : ∀ other, readOpening? "enum" line ≠ some other := fun other h => hd h hcl
    have ho : ∀ composition, readComposition? line ≠ some composition := fun _ h => hc h hcl
    simp [he, ho, eq_comm]
  | none =>
    cases he : readOpening? "enum" line with
    | some name =>
      have ho : ∀ composition, readComposition? line ≠ some composition := fun _ h => hc h he
      simp [ho, eq_comm]
    | none =>
      cases hr : readComposition? line with
      | some composition => simp [addComposition, eq_comm]
      | none => simp

/-! ### All steps -/

/-- What was read when some lines are done: parts that are closed, and the block that is open. -/
def IsReached (lines : List (List Char)) (r : Reading) : Prop := ∃ parts before, Spells parts before ∧
    match r.block with
    | .none => lines = before ∧ r.model = modelOf parts
    | .ofClass name => ∃ opening inner fields, lines = before ++ opening :: inner ∧ Opens "class" opening name ∧
        Forall₂ IsField inner fields ∧ r.model = modelOf (parts ++ [.ofClass name fields])
    | .ofEnum name => ∃ opening inner, lines = before ++ opening :: inner ∧ Opens "enum" opening name ∧
        (∀ line ∈ inner, line ≠ Part.closing) ∧
        r.model = modelOf (parts ++ [.ofEnum name (inner.filterMap lineValue?)])

theorem IsReached.step (h : IsReached lines r) (ht : trimChars line = line)
    (hst : step r line = .ok r') : IsReached (lines ++ [line]) r' := by
  obtain ⟨block, m⟩ := r
  obtain ⟨parts, pre, hs, hsh⟩ := h
  cases block with
  | none =>
    obtain ⟨rfl, hm⟩ := hsh
    subst hm
    rcases step_outside_iff.mp hst with ⟨name, ho, rfl⟩ | ⟨name, ho, rfl⟩ | ⟨c, hl, rfl⟩
    · exact ⟨parts, lines, hs, line, [], [], rfl, ho, .nil, openClass_modelOf parts name⟩
    · exact ⟨parts, lines, hs, line, [], rfl, ho, by simp, openEnum_modelOf parts name⟩
    · exact ⟨_, _, hs.append (.ofComposition hl), rfl, addComposition_modelOf parts c⟩
  | ofClass name =>
    obtain ⟨opening, t, fs, rfl, ho, hin, hm⟩ := hsh
    subst hm
    rcases (step_class_iff ht).mp hst with ⟨rfl, rfl⟩ | ⟨f, hl, rfl⟩
    · exact ⟨_, _, hs.append (.ofClass ho hin), by simp, rfl⟩
    · refine ⟨parts, pre, hs, opening, t ++ [line], fs ++ [f], by simp, ho, ?_, ?_⟩
      · exact rel_append hin (.cons hl .nil)
      · exact addField_modelOf parts name fs f
  | ofEnum name =>
    obtain ⟨opening, t, rfl, ho, hin, hm⟩ := hsh
    subst hm
    rcases step_enum_iff.mp hst with ⟨rfl, rfl⟩ | ⟨hl, rfl⟩
    · exact ⟨_, _, hs.append (.ofEnum ho hin), by simp, rfl⟩
    · refine ⟨parts, pre, hs, opening, t ++ [line], by simp, ho, ?_, ?_⟩
      · simpa [or_imp, forall_and] using ⟨hin, hl⟩
      · exact addLine_modelOf parts name t line

theorem foldlM_step_cons (h : step r line = .ok r') (tl : List (List Char)) :
    (line :: tl).foldlM step r = tl.foldlM step r' := by
  rw [foldlM_cons, h]
  rfl

theorem isReached_of_run (ht : ∀ line ∈ lines, trimChars line = line) (h : lines.foldlM step {} = .ok r) :
    IsReached lines r := by
  induction lines using reverseRecOn generalizing r with
  | nil =>
    cases h
    exact ⟨[], [], .nil, rfl, rfl⟩
  | append_singleton lines line ih =>
    rw [foldlM_append] at h
    cases hr : lines.foldlM step {} with
    | error x =>
      rw [hr] at h
      cases h
    | ok pre =>
      rw [hr] at h
      have hl : [line].foldlM step pre = .ok r := h
      have hb := ih (fun b ho => ht b (mem_append_left _ ho)) hr
      cases hs : step pre line with
      | error x =>
        rw [foldlM_cons, hs] at hl
        cases hl
      | ok r' =>
        rw [foldlM_step_cons hs] at hl
        cases hl
        exact hb.step (ht line (by simp)) hs

theorem run_fields {t : List (List Char)} {fs : List ClassField} (h : Forall₂ IsField t fs)
    (ht : ∀ line ∈ t, trimChars line = line) (parts : List Part) (name : String)
    (tl : List (List Char)) : ∀ done : List ClassField,
    (t ++ tl).foldlM step ⟨.ofClass name, modelOf (parts ++ [.ofClass name done])⟩
      = tl.foldlM step ⟨.ofClass name, modelOf (parts ++ [.ofClass name (done ++ fs)])⟩ := by
  induction h with
  | nil => simp
  | @cons line f t fs hl _ ih =>
    intro done
    have hs : step ⟨.ofClass name, modelOf (parts ++ [.ofClass name done])⟩ line = .ok _ :=
      (step_class_iff (ht line (mem_cons_self ..))).mpr (Or.inr ⟨f, hl, rfl⟩)
    rw [cons_append, foldlM_step_cons hs, addField_modelOf, ih (fun b ho => ht b (mem_cons_of_mem _ ho))]
    simp

theorem run_values (parts : List Part) (name : String) (tl : List (List Char)) :
    ∀ {t : List (List Char)}, (∀ line ∈ t, line ≠ Part.closing) → ∀ done : List (List Char),
    (t ++ tl).foldlM step ⟨.ofEnum name, modelOf (parts ++ [.ofEnum name (done.filterMap lineValue?)])⟩
      = tl.foldlM step ⟨.ofEnum name, modelOf (parts ++ [.ofEnum name ((done ++ t).filterMap lineValue?)])⟩
  | [], _, done => by simp
  | line :: t, h, done => by
    have hs : step ⟨.ofEnum name, modelOf (parts ++ [.ofEnum name (done.filterMap lineValue?)])⟩ line = .ok _ :=
      step_enum_iff.mpr (Or.inr ⟨h line (mem_cons_self ..), rfl⟩)
    rw [cons_append, foldlM_step_cons hs, addLine_modelOf,
      run_values parts name tl fun b ho => h b (mem_cons_of_mem _ ho)]
    simp

theorem run_written (h : part.Written p) (ht : ∀ line ∈ p, trimChars line = line)
    (parts : List Part) (tl : List (List Char)) :
    (p ++ tl).foldlM step ⟨.none, modelOf parts⟩ = tl.foldlM step ⟨.none, modelOf (parts ++ [part])⟩ := by
  cases h with
  | @ofClass opening name t fs ho hin =>
    have hop := (step_outside_iff (m := modelOf parts)).mpr (Or.inl ⟨name, ho, rfl⟩)
    have hc : step ⟨.ofClass name, modelOf (parts ++ [.ofClass name fs])⟩ Part.closing = .ok _ :=
      (step_class_iff (by decide)).mpr (Or.inl ⟨rfl, rfl⟩)
    have hf := run_fields hin (fun line hl => ht line (by simp [hl])) parts name (Part.closing :: tl) []
    rw [cons_append, foldlM_step_cons hop, openClass_modelOf, append_assoc]
    exact hf.trans (foldlM_step_cons hc tl)
  | @ofEnum opening name t ho hin =>
    have hop := (step_outside_iff (m := modelOf parts)).mpr (Or.inr (Or.inl ⟨name, ho, rfl⟩))
    have hc : step ⟨.ofEnum name, modelOf (parts ++ [.ofEnum name (t.filterMap lineValue?)])⟩ Part.closing
        = .ok _ := step_enum_iff.mpr (Or.inl ⟨rfl, rfl⟩)
    have hv := run_values parts name (Part.closing :: tl) hin []
    rw [cons_append, foldlM_step_cons hop, openEnum_modelOf, append_assoc]
    exact hv.trans (foldlM_step_cons hc tl)
  | @ofComposition line composition hl =>
    have hs := (step_outside_iff (m := modelOf parts)).mpr (Or.inr (Or.inr ⟨composition, hl, rfl⟩))
    rw [singleton_append, foldlM_step_cons hs, addComposition_modelOf]

theorem run_of_spells (h : Spells parts lines)
    (ht : ∀ line ∈ lines, trimChars line = line) : lines.foldlM step {} = .ok ⟨.none, modelOf parts⟩ := by
  obtain ⟨ps, hp, rfl⟩ := h
  have hg : ∀ done, ps.flatten.foldlM step ⟨.none, modelOf done⟩ = .ok ⟨.none, modelOf (done ++ parts)⟩ := by
    induction hp with
    | nil => simp [pure, Except.pure]
    | @cons part piece parts ps hpa _ ih =>
      intro done
      rw [flatten_cons, run_written hpa (fun line hl => ht line (by simp [hl])),
        ih (fun line hl => ht line (mem_append_right _ hl))]
      simp
  exact hg []

/-! ### Diagrams -/

theorem trimmed_of_mem_significantLines (h : line ∈ significantLines s) : trimChars line = line := by
  obtain ⟨raw, -, rfl⟩ := mem_map.mp (mem_filter.mp h).1
  exact trimBy_trimBy _ _

/-- Reading a diagram succeeds just if its lines spell parts. -/
theorem ofDiagram_ok_iff (s : String) (m : ClassModel) :
    ofDiagram s = .ok m ↔ ∃ parts, Spells parts (significantLines s) ∧ m = modelOf parts := by
  have ht : ∀ line ∈ significantLines s, trimChars line = line := fun line => trimmed_of_mem_significantLines
  rw [ofDiagram]
  constructor
  · intro h
    cases hr : (significantLines s).foldlM step {} with
    | error x =>
      rw [hr] at h
      cases h
    | ok r =>
      rw [hr] at h
      obtain ⟨block, model⟩ := r
      obtain ⟨parts, pre, hs, hsh⟩ := isReached_of_run ht hr
      cases block with
      | none =>
        obtain ⟨heq, hm⟩ := hsh
        cases h
        exact ⟨parts, heq ▸ hs, hm⟩
      | ofClass name => cases h
      | ofEnum name => cases h
  · rintro ⟨parts, hs, rfl⟩
    rw [run_of_spells hs ht]
    rfl

theorem step_error_format (h : step r line = .error x) : x.kind = .format := by
  unfold step at h
  split at h <;> (repeat' split at h) <;> cases h <;> rfl

theorem ofDiagram_error_format (h : ofDiagram s = .error x) : x.kind = .format := by
  have hr : ∀ {lines : List (List Char)} {r : Reading}, lines.foldlM step r = .error x → x.kind = .format := by
    intro lines
    induction lines with
    | nil => intro r h; cases h
    | cons line tl ih =>
      intro r h
      cases hs : step r line with
      | error b =>
        rw [foldlM_cons, hs] at h
        cases h
        exact step_error_format hs
      | ok r' =>
        rw [foldlM_step_cons hs] at h
        exact ih h
  rw [ofDiagram] at h
  cases hl : (significantLines s).foldlM step {} with
  | error b =>
    rw [hl] at h
    cases h
    exact hr hl
  | ok r =>
    rw [hl] at h
    obtain ⟨block, model⟩ := r
    cases block with
    | none => cases h
    | ofClass name | ofEnum name =>
      cases h
      rfl

end ProcessForge.ClassModel
