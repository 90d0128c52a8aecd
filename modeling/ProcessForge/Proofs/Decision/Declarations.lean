import Mathlib.Data.List.Infix
import ProcessForge.Proofs.Decision.FirstMatch

/-! Declarations of scripts. A script reads every tested column into a variable by a path from one of the
    variables that it was given, and a declared variable hides a given one of the same name from there on. Main
    statement: the declarations are read back, and a column gets the value of its own path in all environments
    just if no column in front of it hides the variable at which the path begins. -/

namespace ProcessForge.Decision

open List Text
open Option (some.inj bind_eq_bind bind_some)
open String (ofList toList_ofList join)

variable {env : String → Option (List String)} {cs : List Char} {c : Char}

/-! ### Running declarations -/

/-- A declared variable and its path: the variable at which it begins, and the steps from there. -/
structure Declaration where
  name : String
  root : String
  steps : List String
  deriving DecidableEq, Repr

variable {ds before b after : List Declaration} {d : Declaration}

section

variable {V : Type} (field fd : V → String → Option V)

/-- The value at the end of some steps; nothing once a step is missing. -/
def follow (v : Option V) (steps : List String) : Option V := steps.foldl (fun v step => v.bind (field · step)) v

def Declaration.value (env : String → Option V) (d : Declaration) : Option V := follow field (env d.root) d.steps

/-- Declarations one after the other; a path is followed before its variable is bound. -/
def execute : List Declaration → (String → Option V) → String → Option V
  | [], env => env
  | d :: rest, env => execute rest (Function.update env d.name (d.value field env))

theorem execute_append (ds es : List Declaration) (env : String → Option V) :
    execute fd (ds ++ es) env = execute fd es (execute fd ds env) := by
  induction ds generalizing env with
  | nil => rfl
  | cons d tl ih => exact ih _

theorem execute_of_not_mem {name : String} (h : name ∉ ds.map Declaration.name) (env : String → Option V) :
    execute fd ds env name = env name := by
  induction ds generalizing env with
  | nil => rfl
  | cons d tl ih =>
    rw [map_cons, mem_cons, not_or] at h
    rw [execute, ih h.2, Function.update_of_ne h.1]

/-- A declared variable has the value of its path among the variables that were there before. -/
theorem execute_at (h : d.name ∉ after.map Declaration.name) (env : String → Option V) :
    execute fd (b ++ d :: after) env d.name = d.value fd (execute fd b env) := by
  rw [execute_append, execute, execute_of_not_mem fd h, Function.update_self]

end

/-! ### Hidden variables -/

/-- A declaration hides the variable at which another path begins, and is not a mere copy of it. -/
def Declaration.Hides (e d : Declaration) : Prop := e.name = d.root ∧ ¬ (e.root = d.root ∧ e.steps = [])

variable {V : Type} {v w : List String} {steps : List (List Char)} {root : List Char} {expression e : String}
    {t : Table}

theorem execute_root (fd : V → String → Option V) (h : ∀ e ∈ before, ¬ e.Hides d)
    (env : String → Option V) : execute fd before env d.root = env d.root := by
  induction before generalizing env with
  | nil => rfl
  | cons e tl ih =>
    rw [forall_mem_cons] at h
    rw [execute, ih h.2]
    by_cases hname : d.root = e.name
    · -- what is declared under this name can only be a copy
      have hc : e.root = d.root ∧ e.steps = [] := by
        by_contra hn
        exact h.1 ⟨hname.symm, hn⟩
      rw [← hname, Function.update_self, Declaration.value, hc.1, hc.2]
      rfl
    · exact Function.update_of_ne hname _ _

/-- Objects with one field each: what is left of a row of steps. -/
def trail : List String → String → Option (List String)
  | [], _ => none
  | next :: rest, step => if next = step then some rest else none

theorem follow_none (fd : V → String → Option V) (steps : List String) : follow fd none steps = none := by
  induction steps with
  | nil => rfl
  | cons step tl ih => exact ih

theorem follow_trail_iff {steps : List String} : follow trail (some v) steps = some w ↔ v = steps ++ w := by
  induction steps generalizing v with
  | nil => simp [follow]
  | cons step rest ih =>
    cases v with
    | nil =>
      have hn : follow trail (some []) (step :: rest) = follow trail none rest := rfl
      simp [hn, follow_none]
    | cons next v =>
      by_cases hs : next = step
      · have hso : follow trail (some (next :: v)) (step :: rest) = follow trail (some v) rest := by
          simp [follow, trail, hs]
        rw [hso, ih]
        simp [hs]
      · have hn : follow trail (some (next :: v)) (step :: rest) = follow trail none rest := by
          simp [follow, trail, hs]
        simp [hn, follow_none, hs]

theorem follow_trail_eq_some {v : Option (List String)} {steps : List String}
    (h : follow trail v steps = some w) : v = some (steps ++ w) := by
  cases v with
  | none => rw [follow_none] at h; cases h
  | some v => rw [follow_trail_iff.mp h]

/-- A name is at least as long as the path of one variable that it stands for. -/
def Declaration.IsNamed (d : Declaration) : Prop := d.steps = [] → d.root.toList <+: d.name.toList

/-- No value goes further than the steps of a declaration, and whatever has all of them in front of it is called
    like its root, perhaps with something behind. -/
def IsWithin (d : Declaration) (env : String → Option (List String)) : Prop :=
  ∀ name v, env name = some v → v.length ≤ d.steps.length ∧ (v.length = d.steps.length → d.root.toList <+: name.toList)

theorem IsWithin.value {e : Declaration} (h : IsWithin d env) (hv : e.value trail env = some v) :
    v.length ≤ d.steps.length ∧ (v.length = d.steps.length → e.steps = [] ∧ d.root.toList <+: e.root.toList) := by
  obtain ⟨hl, hroot⟩ := h e.root _ (follow_trail_eq_some hv)
  rw [length_append] at hl hroot
  refine ⟨by omega, fun ha => ?_⟩
  have hsteps : e.steps = [] := eq_nil_of_length_eq_zero (by omega)
  exact ⟨hsteps, hroot (by omega)⟩

theorem IsWithin.execute (hd : ∀ e ∈ ds, e.IsNamed) (h : IsWithin d env) : IsWithin d (execute trail ds env) := by
  induction ds generalizing env with
  | nil => exact h
  | cons e tl ih =>
    rw [forall_mem_cons] at hd
    refine ih hd.2 fun name v hv => ?_
    by_cases hname : name = e.name
    · rw [hname, Function.update_self] at hv
      obtain ⟨hl, hroot⟩ := h.value hv
      refine ⟨hl, fun ha => ?_⟩
      obtain ⟨hsteps, hp⟩ := hroot ha
      exact hname ▸ hp.trans (hd.1 hsteps)
    · rw [Function.update_of_ne hname] at hv
      exact h name v hv

/-- A variable with the steps of a declaration in front of it. -/
def trailOf (d : Declaration) (name : String) : Option (List String) := if name = d.root then some d.steps else none

theorem isWithin_trailOf (d : Declaration) : IsWithin d (trailOf d) := by
  intro name v hv
  unfold trailOf at hv
  split at hv
  · next hname =>
    obtain rfl := some.inj hv
    exact ⟨le_refl _, fun _ => hname ▸ prefix_refl _⟩
  · cases hv

/-- A declared variable has the value of its own path in all environments just if no earlier declaration hides
    the root of the path. -/
theorem execute_eq_value_iff (hn : ((b ++ d :: after).map Declaration.name).Nodup)
    (hna : ∀ e ∈ b, e.IsNamed) : (∀ (V : Type) (fd : V → String → Option V) (env : String → Option V),
      execute fd (b ++ d :: after) env d.name = d.value fd env) ↔ ∀ e ∈ b, ¬ e.Hides d := by
  rw [map_append, nodup_append] at hn
  obtain ⟨hb, ha, -⟩ := hn
  constructor
  · rintro h e he ⟨hname, ho⟩
    -- run on the row of steps of the path: nothing but the root can have all of them in front of it
    have how : d.value trail (trailOf d) = some [] := by
      rw [Declaration.value, trailOf, if_pos rfl, follow_trail_iff, append_nil]
    have hr := h (List String) trail (trailOf d)
    rw [execute_at trail (nodup_cons.mp ha).1, how] at hr
    have hroot := follow_trail_eq_some hr
    rw [append_nil] at hroot
    obtain ⟨f, last, rfl⟩ := append_of_mem he
    rw [map_append, nodup_append] at hb
    rw [← hname, execute_at trail (nodup_cons.mp hb.2.1).1] at hroot
    have hw := (isWithin_trailOf d).execute fun e' he' => hna e' (mem_append_left _ he')
    obtain ⟨hsteps, hp⟩ := (hw.value hroot).2 rfl
    have hba : e.root.toList <+: d.root.toList := hname ▸ hna e he hsteps
    exact ho ⟨String.toList_injective (hba.eq_of_length_le hp.length_le), hsteps⟩
  · intro h V fd env
    rw [execute_at fd (nodup_cons.mp ha).1, Declaration.value, execute_root fd h, Declaration.value]

/-! ### Reading declarations -/

/-- Steps of a path, each behind a question mark and a dot. The fuel bounds their number. -/
def readSteps? : Nat → List Char → Option (List String × List Char)
  | 0, _ => none
  | fuel + 1, cs =>
    match Text.dropPrefix? ['?', '.'] cs with
    | none => some ([], cs)
    | some rest => do
      let (step, rest) ← readName? rest
      let (steps, rest) ← readSteps? fuel rest
      return (step :: steps, rest)

/-- A path: a name, and steps from there. -/
def readPath? (cs : List Char) : Option ((String × List String) × List Char) := do
  let (root, rest) ← readName? cs
  let (steps, rest) ← readSteps? (rest.length + 1) rest
  return ((root, steps), rest)

/-- A declaration: a word for its type, a name, and a path. A path that is cast stands in brackets. -/
def readDeclaration? (cs : List Char) : Option (Declaration × List Char) := do
  let (_, rest) ← readName? cs
  let (name, rest) ← readName? rest
  let rest ← expect? ['='] rest
  match expect? ['('] rest with
  | none =>
    let ((root, steps), rest) ← readPath? rest
    return (⟨name, root, steps⟩, rest)
  | some rest =>
    let ((root, steps), rest) ← readPath? rest
    let rest ← expect? "as".toList rest
    let (_, rest) ← readName? rest
    let rest ← expect? [')'] rest
    return (⟨name, root, steps⟩, rest)

/-- Declarations up to the end of a text. The fuel bounds their number. -/
def readDeclarations? : Nat → List Char → Option (List Declaration)
  | 0, _ => none
  | fuel + 1, cs =>
    if cs.all isBlank then some []
    else do
      let (d, rest) ← readDeclaration? cs
      let ds ← readDeclarations? fuel rest
      return d :: ds

def declarationsOf? (s : String) : Option (List Declaration) := readDeclarations? (s.length + 1) s.toList

/-- Letters, digits and underscores, of which the first is no digit. -/
def IsIdentifier (cs : List Char) : Prop :=
  ∃ c rest, cs = c :: rest ∧ isNameStart c = true ∧ ∀ d ∈ rest, isNameChar d = true

instance : DecidablePred IsIdentifier := fun cs =>
  decidable_of_iff ((cs.head?.any isNameStart && cs.tail.all isNameChar) = true) (by
    cases cs with
    | nil => simp [IsIdentifier]
    | cons c rest => simp [IsIdentifier])

theorem IsIdentifier.chars (h : IsIdentifier cs) : ∀ c ∈ cs, isNameChar c := by
  obtain ⟨f, tl, rfl, hs, hr⟩ := h
  rw [forall_mem_cons]
  exact ⟨isNameChar_of_isNameStart hs, hr⟩

theorem IsIdentifier.ne_nil (h : IsIdentifier cs) : cs ≠ [] := by
  obtain ⟨f, tl, rfl, -⟩ := h
  simp

theorem readName?_identifier {tl : List Char} (h : IsIdentifier cs) (hr : Ends tl) :
    readName? (cs ++ tl) = some (ofList cs, tl) := by
  obtain ⟨f, cs, rfl, hs, hc⟩ := h
  exact readName?_cons hs hc hr

theorem readName?_blank (hc : isBlank c) (rest : List Char) : readName? (c :: rest) = readName? rest := by
  rw [readName?, dropWhile_cons_of_pos hc, ← readName?]

theorem ends_blank (hc : isBlank c) (tl : List Char) : Ends (c :: tl) := by
  refine ends_cons ?_ tl
  by_contra hname
  rw [not_isBlank_of_isNameChar ((Bool.not_eq_false _).mp hname)] at hc
  cases hc

def stepsText (steps : List (List Char)) : List Char := steps.flatMap fun step => '?' :: '.' :: step

theorem ends_stepsText (steps : List (List Char)) (hc : isBlank c) (tl : List Char) :
    Ends (stepsText steps ++ c :: tl) := by
  cases steps with
  | nil => exact ends_blank hc tl
  | cons next steps => exact ends_cons (by decide) _

theorem readSteps?_append (h : ∀ step ∈ steps, IsIdentifier step)
    (hc : isBlank c) (tl : List Char) : ∀ k, steps.length < k →
    readSteps? k (stepsText steps ++ c :: tl) = some (steps.map ofList, c :: tl) := by
  induction steps with
  | nil =>
    intro k hf
    obtain ⟨k, rfl⟩ : ∃ n, k = n + 1 := ⟨k - 1, by omega⟩
    have hn : ¬ '?' = c := by
      rintro rfl
      exact absurd hc (by decide)
    have hs : Text.dropPrefix? ['?', '.'] (c :: tl) = none := by simp [Text.dropPrefix?, hn]
    simp [stepsText, readSteps?, hs]
  | cons step steps ih =>
    intro k hf
    obtain ⟨k, rfl⟩ : ∃ n, k = n + 1 := ⟨k - 1, by omega⟩
    rw [forall_mem_cons] at h
    have ht : stepsText (step :: steps) ++ c :: tl = ['?', '.'] ++ (step ++ (stepsText steps ++ c :: tl)) := by
      simp [stepsText]
    rw [ht, readSteps?, dropPrefix?_append]
    simp [readName?_identifier h.1 (ends_stepsText steps hc tl), ih h.2 k (by simp at hf; omega)]

theorem length_le_stepsText (steps : List (List Char)) : steps.length ≤ (stepsText steps).length := by
  induction steps with
  | nil => simp
  | cons step steps ih => simp [stepsText] at ih ⊢; omega

theorem readPath?_append (hroot : IsIdentifier root)
    (hsteps : ∀ step ∈ steps, IsIdentifier step) (hc : isBlank c) (tl : List Char) :
    readPath? (root ++ (stepsText steps ++ c :: tl)) = some ((ofList root, steps.map ofList), c :: tl) := by
  have hr := readSteps?_append hsteps hc tl ((stepsText steps ++ c :: tl).length + 1) (by
    have := length_le_stepsText steps
    rw [length_append]
    omega)
  simp only [readPath?, readName?_identifier hroot (ends_stepsText steps hc tl), hr, bind_eq_bind,
    bind_some, Option.pure_def]

theorem readPath?_blank (hc : isBlank c) (rest : List Char) : readPath? (c :: rest) = readPath? rest := by
  simp [readPath?, readName?_blank hc]

section

variable {name root : List Char} {steps : List (List Char)} (hname : IsIdentifier name) (hroot : IsIdentifier root)
  (hsteps : ∀ step ∈ steps, IsIdentifier step) (rest tl : List Char)

include hname hroot hsteps

theorem readDeclaration?_plain : readDeclaration?
      ("def".toList ++ ' ' :: (name ++ ' ' :: '=' :: ' ' :: (root ++ (stepsText steps ++ '\n' :: rest))))
    = some (⟨ofList name, ofList root, steps.map ofList⟩, '\n' :: rest) := by
  have hs : isBlank ' ' := by decide
  have hd : IsIdentifier "def".toList := ⟨'d', ['e', 'f'], rfl, by decide, forall_mem_of_all (by decide)⟩
  obtain ⟨first, tl, hf, hst, -⟩ := id hroot
  have ho : expect? ['('] (root ++ (stepsText steps ++ '\n' :: rest)) = none := by
    have hn : '(' ≠ first := by
      rintro rfl
      exact absurd hst (by decide)
    rw [hf]
    exact expect?_cons_of_ne (not_isBlank_of_isNameChar (isNameChar_of_isNameStart hst)) hn [] _
  have ht := fun rest => readName?_identifier hd (ends_blank hs rest)
  have hr := fun rest => readName?_identifier hname (ends_blank hs rest)
  have hp := readPath?_append hroot hsteps (c := '\n') (by decide) rest
  simp only [readDeclaration?, ht, readName?_blank hs, hr, expect?_blank hs,
    expect?_char (c := '=') (by decide), ho, readPath?_blank hs, hp, bind_eq_bind, bind_some,
    Option.pure_def]

theorem readDeclaration?_cast {type : List Char} (ht : IsIdentifier type) : readDeclaration?
      (type ++ ' ' :: (name ++ ' ' :: '=' :: ' ' :: '(' :: (root ++ (stepsText steps ++ ' ' :: 'a' :: 's' :: ' ' ::
        (type ++ ')' :: '\n' :: rest))))) = some (⟨ofList name, ofList root, steps.map ofList⟩, '\n' :: rest) := by
  have hs : isBlank ' ' := by decide
  have hw := fun rest => readName?_identifier ht (ends_blank hs rest)
  have hr := fun rest => readName?_identifier hname (ends_blank hs rest)
  have hp := readPath?_append hroot hsteps hs
  have has : ∀ rest, expect? "as".toList ('a' :: 's' :: rest) = some rest := expect?_cons (by decide) ['s']
  have hc := readName?_identifier ht (ends_cons (c := ')') (by decide) ('\n' :: rest))
  simp only [readDeclaration?, hw, readName?_blank hs, hr, expect?_blank hs,
    expect?_char (c := '=') (by decide), expect?_char (c := '(') (by decide), hp, has, hc,
    expect?_char (c := ')') (by decide), bind_eq_bind, bind_some, Option.pure_def]

end

theorem readDeclarations?_blank (hc : isBlank c) (k : Nat) (rest : List Char) :
    readDeclarations? k (c :: rest) = readDeclarations? k rest := by
  cases k with
  | zero => simp [readDeclarations?]
  | succ k =>
    have hd : readDeclaration? (c :: rest) = readDeclaration? rest := by
      simp [readDeclaration?, readName?_blank hc]
    simp [readDeclarations?, hc, hd]

theorem readName?_of_blank (h : cs.all isBlank) : readName? cs = none := by
  induction cs with
  | nil => rfl
  | cons c cs ih =>
    rw [all_cons, Bool.and_eq_true] at h
    rw [readName?_blank h.1, ih h.2]

/-! ### Columns -/

def segments (expression : String) : List String :=
  (splitAtChar '.' (trimChars expression.toList)).map ofList

/-- The value of a path in an environment: from the variable that is its first segment. -/
def pathValue {V : Type} (field : V → String → Option V) (env : String → Option V) (path : List String) : Option V :=
  follow field (env (path.headD "")) path.tail

def Column.declared (c : Column) : Declaration :=
  ⟨c.name, (segments c.expression).headD "", (segments c.expression).tail⟩

def IsPath (expression : String) : Prop :=
  ∀ segment ∈ splitAtChar '.' (trimChars expression.toList), IsIdentifier segment

instance : DecidablePred IsPath := fun expression =>
  decidable_of_iff ((splitAtChar '.' (trimChars expression.toList)).all fun segment =>
    decide (IsIdentifier segment)) (by simp [IsPath])

theorem segments_trim (expression : String) : segments (trim expression) = segments expression := by
  rw [segments, trim, toList_ofList, trimChars, trimChars, trimBy_trimBy, segments, trimChars]

theorem isPath_trim : IsPath (trim expression) ↔ IsPath expression := by
  rw [IsPath, IsPath, trim, toList_ofList, trimChars, trimChars, trimBy_trimBy]

theorem segments_ne_nil (e : String) : segments e ≠ [] := by
  simpa [segments] using splitAtChar_ne_nil '.' _

theorem replaceAll_dot (h : splitAtChar '.' cs = root :: steps) :
    replaceAll ['.'] ['?', '.'] cs = root ++ stepsText steps := by
  rw [replaceAll]
  induction cs generalizing root steps with
  | nil =>
    obtain ⟨rfl, rfl⟩ := cons.inj h
    rfl
  | cons c cs ih =>
    obtain ⟨f, ps, hs⟩ := exists_cons_of_ne_nil (splitAtChar_ne_nil '.' cs)
    by_cases hc : c = '.'
    · rw [splitAtChar, if_pos (beq_iff_eq.mpr hc), hs] at h
      obtain ⟨rfl, rfl⟩ := cons.inj h
      simp [replaceFrom, hc, ih hs, stepsText]
    · rw [splitAtChar_cons_of_ne hc hs] at h
      obtain ⟨rfl, rfl⟩ := cons.inj h
      simp [replaceFrom, Ne.symm hc, ih hs]

theorem isIdentifier_of_scriptType? {type : Option String} {wd : String} (h : scriptType? type = some wd) :
    IsIdentifier wd.toList := by
  unfold scriptType? at h
  split at h
  case h_7 => cases h
  all_goals
    obtain rfl := some.inj h
    exact ⟨_, _, rfl, by decide, forall_mem_of_all (by decide)⟩

theorem readDeclaration?_column {c : Column} (hname : IsIdentifier c.name.toList) (hp : IsPath c.expression)
    (tl : List Char) : readDeclaration? (c.declaration.toList ++ tl) = some (c.declared, '\n' :: tl) := by
  obtain ⟨root, steps, hs⟩ := exists_cons_of_ne_nil (splitAtChar_ne_nil '.' (trimChars c.expression.toList))
  rw [IsPath, hs, forall_mem_cons] at hp
  have hd : c.declared = ⟨ofList c.name.toList, ofList root, steps.map ofList⟩ := by
    simp [Column.declared, segments, hs]
  have hsa : (safePath c.expression).toList = root ++ stepsText steps := by
    rw [safePath, toList_ofList, replaceAll_dot hs]
  rw [hd, Column.declaration]
  split
  · have hr := readDeclaration?_plain hname hp.1 hp.2 tl
    simpa [hsa] using hr
  · next word hw =>
    have hr := readDeclaration?_cast hname hp.1 hp.2 tl (isIdentifier_of_scriptType? hw)
    simpa [hsa] using hr

theorem readDeclarations?_columns {cols : List Column}
    (h : ∀ c ∈ cols, IsIdentifier c.name.toList ∧ IsPath c.expression) : ∀ k, cols.length < k →
    readDeclarations? k (cols.flatMap fun c => c.declaration.toList) = some (cols.map Column.declared) := by
  induction cols with
  | nil =>
    intro k hf
    obtain ⟨k, rfl⟩ : ∃ n, k = n + 1 := ⟨k - 1, by omega⟩
    rfl
  | cons c cols ih =>
    intro k hf
    obtain ⟨k, rfl⟩ : ∃ n, k = n + 1 := ⟨k - 1, by omega⟩
    rw [forall_mem_cons] at h
    have hr := readDeclaration?_column h.1.1 h.1.2 (cols.flatMap fun c => c.declaration.toList)
    have hs : (c.declaration.toList ++ cols.flatMap fun c => c.declaration.toList).all isBlank = false := by
      by_contra hb
      rw [readDeclaration?, readName?_of_blank ((Bool.not_eq_false _).mp hb)] at hr
      cases hr
    rw [flatMap_cons, readDeclarations?, hs]
    simp [hr, readDeclarations?_blank (c := '\n') (by decide),
      ih h.2 k (by simp at hf; omega)]

theorem IsIdentifier.append_digits {digits : List Char} (h : IsIdentifier cs)
    (hd : ∀ c ∈ digits, c.isDigit) : IsIdentifier (cs ++ digits) := by
  obtain ⟨f, tl, rfl, hs, hr⟩ := h
  refine ⟨f, tl ++ digits, rfl, hs, fun c hc => ?_⟩
  exact (mem_append.mp hc).elim (hr c) fun hc => isNameChar_of_isDigit (hd c hc)

/-- The variable of a path is an identifier that begins with the last segment of the path. -/
theorem isIdentifier_deriveName (h : IsPath e) (used : List String) : IsIdentifier (deriveName used (trim e)).toList ∧
    afterLast '.' (trimChars e.toList) <+: (deriveName used (trim e)).toList := by
  have hl := h _ (afterLast_mem_splitAtChar '.' _)
  have hb := nameFor_trim hl.ne_nil hl.chars
  rcases (deriveName_spec used (trim e)).2 with ⟨-, hname⟩ | ⟨-, n, -, hname, -⟩
  · rw [hname, hb, toList_ofList]
    exact ⟨hl, prefix_refl _⟩
  · rw [hname, hb, toList_numbered, toList_ofList]
    exact ⟨hl.append_digits fun c hc => Nat.isDigit_of_mem_toDigits (by decide) (by decide) hc, prefix_append _ _⟩

/-- Tables whose tested columns are dotted paths of identifiers. -/
def Table.HasPaths (table : Table) : Prop := ∀ input ∈ table.inputs, input.IsTested → IsPath input.expression

/-- What declares the variables in the script of a table. -/
def declarationText (table : Table) : String :=
  join (((columns table.inputs).filter Column.isTested).map Column.declaration)

/-- A column of such a table is read back, and its variable is not shorter than its path if that is one variable. -/
theorem Table.HasPaths.column (h : t.HasPaths) {c : Column} (hc : c ∈ (columns t.inputs).filter Column.isTested) :
    IsIdentifier c.name.toList ∧ IsPath c.expression ∧ c.declared.IsNamed := by
  obtain ⟨hm, ht⟩ := mem_filter.mp hc
  obtain ⟨i, hi⟩ := mem_iff_getElem?.mp hm
  obtain ⟨inp, hin, he, -, used, hname⟩ := exists_input_of_column hi
  have hp : IsPath inp.expression := h inp (mem_of_getElem? hin) (by
    simpa [Column.isTested, he, Input.IsTested] using ht)
  obtain ⟨hid, hpr⟩ := isIdentifier_deriveName hp used
  refine ⟨hname ▸ hid, he ▸ isPath_trim.mpr hp, fun hsteps => ?_⟩
  -- with no steps, the last segment is the root
  obtain ⟨root, steps, hs⟩ := exists_cons_of_ne_nil (splitAtChar_ne_nil '.' (trimChars inp.expression.toList))
  have hd : c.declared = ⟨c.name, ofList root, steps.map ofList⟩ := by
    rw [Column.declared, he, segments_trim]
    simp [segments, hs]
  rw [hd, map_eq_nil_iff] at hsteps
  have hl := afterLast_mem_splitAtChar '.' (trimChars inp.expression.toList)
  rw [hs, hsteps, mem_singleton] at hl
  rw [hd, hname, toList_ofList, ← hl]
  exact hpr

theorem length_le_declarations (cols : List Column) :
    cols.length ≤ (cols.flatMap fun c => c.declaration.toList).length := by
  induction cols with
  | nil => simp
  | cons c cols ih =>
    have hl : 1 ≤ c.declaration.toList.length := by
      unfold Column.declaration
      split <;> simp only [String.toList_append, length_append, String.reduceToList, length_cons] <;> omega
    rw [flatMap_cons, length_append, length_cons]
    omega

theorem declarationsOf?_declarationText (h : t.HasPaths) : declarationsOf? (declarationText t)
      = some (((columns t.inputs).filter Column.isTested).map Column.declared) := by
  have ht : (declarationText t).toList
      = ((columns t.inputs).filter Column.isTested).flatMap fun c => c.declaration.toList := by
    rw [declarationText, String.toList_join, flatMap_map]
  rw [declarationsOf?, ht]
  refine readDeclarations?_columns (fun c hc => ⟨(h.column hc).1, (h.column hc).2.1⟩) _ ?_
  rw [← String.length_toList, ht]
  exact Nat.lt_succ_of_le (length_le_declarations _)

/-- A column hides the variable at which a path begins: it has its name, and is not that variable itself. -/
def Column.HidesRoot (c : Column) (expression : String) : Prop :=
  (segments expression).head? = some c.name ∧ segments c.expression ≠ [c.name]

theorem hides_declared_iff (c d : Column) : c.declared.Hides d.declared ↔ c.HidesRoot d.expression := by
  obtain ⟨root, steps, hc⟩ := exists_cons_of_ne_nil (segments_ne_nil c.expression)
  obtain ⟨root', steps', hd⟩ := exists_cons_of_ne_nil (segments_ne_nil d.expression)
  simp only [Declaration.Hides, Column.declared, Column.HidesRoot, hc, hd, headD_cons, tail_cons,
    head?_cons, Option.some.injEq, ne_eq, cons.injEq]
  constructor
  · rintro ⟨rfl, ho⟩
    exact ⟨rfl, ho⟩
  · rintro ⟨rfl, ho⟩
    exact ⟨rfl, ho⟩

theorem filter_split {α : Type} {p : α → Bool} {l : List α} {i : Nat} {a : α} (h : l[i]? = some a)
    (ha : p a) : ∃ before after, l.filter p = before ++ a :: after ∧
      ∀ b, b ∈ before ↔ p b ∧ ∃ j < i, l[j]? = some b := by
  obtain ⟨hl, hg⟩ := List.getElem?_eq_some_iff.mp h
  refine ⟨(l.take i).filter p, (l.drop (i + 1)).filter p, ?_, fun b => ?_⟩
  · rw [← filter_cons_of_pos ha, ← filter_append, ← hg, getElem_cons_drop, take_append_drop]
  · rw [mem_filter, mem_iff_getElem?, and_comm]
    simp only [getElem?_take]
    constructor
    · rintro ⟨hb, j, hj⟩
      split at hj
      · next hji => exact ⟨hb, j, hji, hj⟩
      · cases hj
    · rintro ⟨hb, j, hji, hj⟩
      exact ⟨hb, j, by rw [if_pos hji]; exact hj⟩

/-- The declarations stand behind the comment of a script and can be read. Run in their order, they give a column
    the value of its own path in all environments just if no tested column in front of it hides the root of the
    path. -/
theorem declarations_bind_own_path_iff {table : Table} (h : table.HasPaths) :
    script table = header table (columns table.inputs) ++ declarationText table ++ "\n" ++ chain table ∧
    ∃ ds, declarationsOf? (declarationText table) = some ds ∧
      ∀ (i : Nat) (input : Input) (c : Column), table.inputs[i]? = some input → input.IsTested →
        (columns table.inputs)[i]? = some c → ((∀ (V : Type) (field : V → String → Option V) (env : String → Option V),
            execute field ds env c.name = pathValue field env (segments input.expression)) ↔
          ¬ ∃ j < i, ∃ earlier, (columns table.inputs)[j]? = some earlier ∧ earlier.isTested = true ∧
            earlier.HidesRoot input.expression) := by
  refine ⟨rfl, _, declarationsOf?_declarationText h, fun i input c hinput htested hc => ?_⟩
  obtain ⟨input', hinput', hexpression, -⟩ := exists_input_of_column hc
  obtain rfl := some.inj (hinput.symm.trans hinput')
  have hkept : c.isTested = true := by simpa [Column.isTested, hexpression, Input.IsTested] using htested
  obtain ⟨before, after, hsplit, hbefore⟩ := filter_split hc hkept
  have hnodup : (((columns table.inputs).filter Column.isTested).map Column.name).Nodup :=
    (nodup_names table.inputs).sublist (filter_sublist.map _)
  have hvalue : ∀ (V : Type) (field : V → String → Option V) (env : String → Option V),
      pathValue field env (segments input.expression) = c.declared.value field env := by
    intro V field env
    rw [← segments_trim, ← hexpression]
    rfl
  have hiff := @execute_eq_value_iff (before.map Column.declared) (after.map Column.declared) c.declared
    (by rw [hsplit] at hnodup; simpa [Function.comp_def, Column.declared] using hnodup)
    (by
      intro e he
      obtain ⟨c', hc', rfl⟩ := mem_map.mp he
      exact (h.column (hsplit ▸ mem_append_left _ hc')).2.2)
  have hroot : ∀ earlier : Column, earlier.declared.Hides c.declared ↔ earlier.HidesRoot input.expression := by
    intro earlier
    rw [hides_declared_iff, Column.HidesRoot, hexpression, segments_trim, ← Column.HidesRoot]
  simp only [hvalue]
  rw [hsplit, map_append, map_cons]
  refine hiff.trans ⟨?_, ?_⟩
  · rintro hnone ⟨j, hj, earlier, hearlier, hkept', hhides⟩
    have hmem : earlier ∈ before := (hbefore earlier).mpr ⟨hkept', j, hj, hearlier⟩
    exact hnone _ (mem_map_of_mem hmem) ((hroot earlier).mpr hhides)
  · rintro hnone e he hhides
    obtain ⟨earlier, hmem, rfl⟩ := mem_map.mp he
    obtain ⟨hkept', j, hj, hearlier⟩ := (hbefore earlier).mp hmem
    exact hnone ⟨j, hj, earlier, hearlier, hkept', (hroot earlier).mp hhides⟩

def pathTable (first second : String) : Table where
  inputs := [{ expression := first }, { expression := second, type := some "string" }]

theorem hasPaths_pathTable {f second : String} (hf : IsPath f) (hs : IsPath second) :
    (pathTable f second).HasPaths := by
  intro i hin _
  simp only [pathTable, mem_cons, not_mem_nil, or_false] at hin
  rcases hin with rfl | rfl
  · exact hf
  · exact hs

/-- The status of a customer is read before the customer of an order gets the same name. -/
theorem declarations_bind_own_path_iff_status_first : (pathTable "customer.status" "order.customer").HasPaths ∧
    ∃ ds, declarationsOf? (declarationText (pathTable "customer.status" "order.customer")) = some ds ∧
      ∀ (V : Type) (field : V → String → Option V) (env : String → Option V),
        execute field ds env "status" = pathValue field env ["customer", "status"] ∧
        execute field ds env "customer" = pathValue field env ["order", "customer"] := by
  have hpaths : (pathTable "customer.status" "order.customer").HasPaths := hasPaths_pathTable (by decide) (by decide)
  obtain ⟨-, ds, hds, hbind⟩ := declarations_bind_own_path_iff hpaths
  refine ⟨hpaths, ds, hds, fun V field env => ⟨?_, ?_⟩⟩
  · refine (hbind 0 _ _ rfl (by rw [Input.IsTested]; decide) rfl).mpr ?_ V field env
    rintro ⟨j, hj, -⟩
    cases hj
  · refine (hbind 1 _ _ rfl (by rw [Input.IsTested]; decide) rfl).mpr ?_ V field env
    rintro ⟨j, hj, earlier, hearlier, -, hroot, -⟩
    obtain rfl : j = 0 := by omega
    obtain rfl := some.inj hearlier
    exact absurd hroot (by decide)

def spelled (value step : String) : Option String := some (value ++ "." ++ step)

/-- The other way around, it is the status of the customer of the order. -/
theorem status_of_other_customer : (pathTable "order.customer" "customer.status").HasPaths ∧
    declarationText (pathTable "order.customer" "customer.status")
      = "def customer = order?.customer\nString status = (customer?.status as String)\n" ∧
    declarationsOf? (declarationText (pathTable "order.customer" "customer.status"))
      = some [⟨"customer", "order", ["customer"]⟩, ⟨"status", "customer", ["status"]⟩] ∧
    execute spelled [⟨"customer", "order", ["customer"]⟩, ⟨"status", "customer", ["status"]⟩] some "status"
      = some "order.customer.status" ∧ pathValue spelled some (segments "customer.status") = some "customer.status" :=
  ⟨hasPaths_pathTable (by decide) (by decide), by decide +kernel, by decide +kernel, by decide +kernel,
    by decide +kernel⟩

end ProcessForge.Decision
