import ProcessForge.Proofs.Decision.Cell
import ProcessForge.Proofs.Decision.Names

/-! Scripts decide as their tables do. A table gives the result of the first rule whose entries all admit the
    values of their columns, and null if there is none. The chain of conditional returns in its script, read
    as a program and run on these values, gives the same. Columns without an expression are not tested, and
    entries that are missing at the end of a rule admit every value. -/

namespace ProcessForge.Decision

open List Text

variable {V : Type}

/-! ### Decisions of tables -/

/-- The entry at a place of a rule, without blanks around it; empty if it is missing. -/
def Rule.entry (rule : Rule) (i : Nat) : List Char := trimChars (rule.entries[i]?.getD "").toList

/-- Whether the values of a column are tested. -/
def Input.IsTested (input : Input) : Prop := trim input.expression ≠ ""

/-- The entries of a rule admit the values of all tested columns. -/
def Rule.Matches (M : Meaning V) (inputs : List Input) (row : Nat → V) (rule : Rule) : Prop :=
  ∀ i input, inputs[i]? = some input → input.IsTested →
    ∃ cell, Spelled (ColumnKind.ofType input.type) (rule.entry i) cell ∧ cell.holds M (row i) = true

/-- The result of a rule as it is written in scripts. -/
def Table.resultText (table : Table) (rule : Rule) : String := literal (table.output.bind Output.type) rule.result

/-- The result of the first rule that fires, or null if there is none. -/
def IsFirst (fires : Rule → Prop) (text : Rule → String) (rules : List Rule) (result : String) : Prop :=
  (∃ before rule after, rules = before ++ rule :: after ∧ (∀ earlier ∈ before, ¬ fires earlier) ∧
    fires rule ∧ result = text rule) ∨
  ((∀ rule ∈ rules, ¬ fires rule) ∧ result = "null")

/-- What a table decides on a row of values, one for each column. -/
def Table.Decides (M : Meaning V) (table : Table) (row : Nat → V) (result : String) : Prop :=
  IsFirst (Rule.Matches M table.inputs row) table.resultText table.rules result

/-- Tables whose scripts can be read: expressions of tested columns end with a name, entries are spelled as
    their columns ask, and no result has a line that begins with a closing brace. -/
structure Table.IsReadable (table : Table) : Prop where
  names : ∀ input ∈ table.inputs, input.IsTested →
    IsName (String.ofList (afterLast '.' (trimChars input.expression.toList)))
  entries : ∀ rule ∈ table.rules, ∀ i input, table.inputs[i]? = some input → input.IsTested →
    ∃ cell, Spelled (ColumnKind.ofType input.type) (rule.entry i) cell
  results : ∀ rule ∈ table.rules, ¬ ['\n', '\x7d'] <:+: (table.resultText rule).toList

/-- The value of each variable of a script, for a row with one value for each column. -/
def bindings : List Column → (Nat → V) → String → Option V
  | [], _, _ => none
  | c :: rest, row, name =>
    if c.isTested && c.name == name then some (row 0)
    else bindings rest (fun i => row (i + 1)) name

/-! ### Columns -/

variable {inputs ins : List Input} {i : Nat} {e : String} {M : Meaning V} {values : String → Option V}
    {formulas : List Formula} {fires : Rule → Prop} {rule : Rule}

theorem getElem?_columns {inp : Input} (h : ins[i]? = some inp) : ∃ used, (columns ins)[i]? = some
      { expression := trim inp.expression, type := inp.type,
        name := deriveName used (trim inp.expression) } := by
  have he : (ins.map fun inp => trim inp.expression)[i]? = some (trim inp.expression) := by simp [h]
  obtain ⟨used, hn⟩ : ∃ used, _ = some (deriveName used _) := ⟨_, getElem?_deriveNames [] _ i _ he⟩
  refine ⟨used, ?_⟩
  simp [columns, getElem?_zip_eq_some, h, hn]

theorem length_columns (ins : List Input) : (columns ins).length = ins.length := by
  simp [columns, length_deriveNames]

theorem exists_input_of_column {c : Column} (h : (columns ins)[i]? = some c) : ∃ inp, ins[i]? = some inp ∧
      c.expression = trim inp.expression ∧ c.type = inp.type ∧
      ∃ used, c.name = deriveName used (trim inp.expression) := by
  obtain ⟨hl, -⟩ := List.getElem?_eq_some_iff.mp h
  rw [length_columns] at hl
  obtain ⟨used, hc⟩ := getElem?_columns (getElem?_eq_getElem hl)
  obtain rfl := Option.some.inj (h.symm.trans hc)
  exact ⟨ins[i], getElem?_eq_getElem hl, rfl, rfl, used, rfl⟩

theorem nodup_names (ins : List Input) : ((columns ins).map Column.name).Nodup := by
  have hn : (columns ins).map Column.name = deriveNames [] (ins.map fun inp => trim inp.expression) := by
    rw [columns, map_map]
    change map (Prod.snd ∘ Prod.snd) _ = _
    rw [← map_map, map_snd_zip (by simp [length_deriveNames]), map_snd_zip (by simp [length_deriveNames])]
  rw [hn]
  exact (deriveNames_fresh [] _).2

theorem isName_numbered {base : String} (h : IsName base) (n : Nat) : IsName (numbered base n) := by
  have hdi := toList_numbered base n
  have hdig : ∀ c ∈ Nat.toDigits 10 n, c.isDigit := fun c hc =>
    Nat.isDigit_of_mem_toDigits (by decide) (by decide) hc
  obtain ⟨c, cs, hcs⟩ := exists_cons_of_ne_nil h.nonempty
  refine ⟨?_, ?_, ?_, ?_⟩
  · intro d hd
    exact h.start d (by simpa [hdi, hcs] using hd)
  · simp [hdi]
  · intro d hd
    rw [hdi, mem_append] at hd
    exact hd.elim (h.chars d) fun hd => isNameChar_of_isDigit (hdig d hd)
  · -- a reserved word does not end with a digit
    intro hr
    obtain ⟨d, hd⟩ := exists_mem_of_ne_nil _ (@Nat.toDigits_ne_nil n 10)
    have hw : ∀ w ∈ ["true", "false", "null"], ∀ e ∈ w.toList, e.isDigit = false := by
      intro w hm
      simp only [mem_cons, not_mem_nil, or_false] at hm
      rcases hm with rfl | rfl | rfl <;> exact forall_mem_of_all (by decide)
    have hn := hw _ hr d (by simp [hdi, hd])
    rw [hdig d hd] at hn
    cases hn

theorem nameFor_trim (hn : afterLast '.' (trimChars e.toList) ≠ [])
    (hch : ∀ c ∈ afterLast '.' (trimChars e.toList), isNameChar c) :
    nameFor (trim e) = String.ofList (afterLast '.' (trimChars e.toList)) := by
  have ht : trimChars (trim e).toList = trimChars e.toList := by
    rw [trim, String.toList_ofList]
    exact trimBy_trimBy _ _
  have hs : (afterLast '.' (trimChars e.toList)).isEmpty = false := by simpa using hn
  have hm : (afterLast '.' (trimChars e.toList)).map (fun c => if isNameChar c then c else '_')
      = afterLast '.' (trimChars e.toList) := by
    rw [map_congr_left fun c hc => if_pos (hch c hc), map_id']
  simp [nameFor, ht, hs, hm]

theorem isName_deriveName (h : IsName (String.ofList (afterLast '.' (trimChars e.toList))))
    (used : List String) : IsName (deriveName used (trim e)) := by
  have hb := nameFor_trim (by simpa using h.nonempty) fun c hc => h.chars c (by simpa using hc)
  rcases (deriveName_spec used (trim e)).2 with ⟨-, hn⟩ | ⟨-, n, -, hn, -⟩
  · rwa [hn, hb]
  · rw [hn, hb]
    exact isName_numbered h n

theorem bindings_of_getElem? : ∀ {cols : List Column} (row : Nat → V) {i : Nat} {c : Column},
    (cols.map Column.name).Nodup → cols[i]? = some c → c.isTested →
    bindings cols row c.name = some (row i)
  | first :: rest, row, 0, c, _, hc, ht => by
    obtain rfl : first = c := by simpa using hc
    simp [bindings, ht]
  | first :: rest, row, i + 1, c, hn, hc, ht => by
    rw [map_cons, nodup_cons] at hn
    have hne : first.name ≠ c.name := by
      intro heq
      exact hn.1 (heq ▸ mem_map_of_mem (mem_of_getElem? hc))
    rw [bindings, if_neg (by simp [hne])]
    exact bindings_of_getElem? (fun i => row (i + 1)) hn.2 hc ht

/-! ### Rules -/

theorem Formula.eval_all {truths : List Bool} (h : Forall₂ (fun f b => f.eval M values = some b) formulas truths) :
    (Formula.all formulas).eval M values = some (truths.all id) := by
  induction h with
  | nil => rfl
  | @cons f b formulas truths hf hr ih =>
    cases hr with
    | nil => simpa [Formula.all] using hf
    | cons hn hm =>
      simp only [Formula.all, Formula.eval, hf, Option.bind_some]
      cases b with
      | false => rfl
      | true => simpa using ih

/-- A rule over a list of columns, of which the first one is tested or not. -/
def Fires (M : Meaning V) (cols : List Column) (row : Nat → V) (entries : List String) : Prop :=
  ∀ i c, cols[i]? = some c → c.isTested = true →
    ∃ cell, Spelled (ColumnKind.ofType c.type) (trimChars (entries[i]?.getD "").toList) cell ∧
      cell.holds M (row i) = true

theorem fires_cons (M : Meaning V) (c : Column) (cols : List Column) (row : Nat → V) (xs : List String) :
    Fires M (c :: cols) row xs ↔ (c.isTested → ∃ cell, Spelled (ColumnKind.ofType c.type)
        (trimChars (xs.head?.getD "").toList) cell ∧ cell.holds M (row 0)) ∧
      Fires M cols (fun i => row (i + 1)) xs.tail := by
  constructor
  · intro h
    refine ⟨fun ht => ?_, fun i d hd ht => ?_⟩
    · simpa [head?_eq_getElem?] using h 0 c rfl ht
    · simpa [getElem?_tail] using h (i + 1) d (by simpa using hd) ht
  · rintro ⟨hf, hr⟩ i d hd ht
    cases i with
    | zero =>
      obtain rfl : c = d := by simpa using hd
      simpa [head?_eq_getElem?] using hf ht
    | succ i =>
      simpa [getElem?_tail] using hr i d (by simpa using hd) ht

/-- The conditions of a rule are read back as formulas that all hold exactly if the rule fires. -/
theorem ruleConditions_reads (M : Meaning V) (values : String → Option V) :
    ∀ (cols : List Column) (row : Nat → V) (entries : List String),
    (∀ i c, cols[i]? = some c → c.isTested → IsName c.name ∧ values c.name = some (row i) ∧
      ∃ cell, Spelled (ColumnKind.ofType c.type) (trimChars (entries[i]?.getD "").toList) cell) →
    ∃ formulas truths, Forall₂ ReadsTerm
        ((ruleConditions cols entries).map fun (name, test) => (test.render name).toList) formulas ∧
      Forall₂ (fun f b => f.eval M values = some b) formulas truths ∧
      (truths.all id ↔ Fires M cols row entries)
  | [], row, entries, _ => ⟨[], [], .nil, .nil, by simp [Fires]⟩
  | c :: cols, row, entries, h => by
    obtain ⟨formulas, truths, hr, he, hf⟩ :=
      ruleConditions_reads M values cols (fun i => row (i + 1)) entries.tail fun i d hd ht => by
        simpa [getElem?_tail] using h (i + 1) d (by simpa using hd) ht
    rw [fires_cons, ← hf]
    by_cases ht : c.isTested
    · obtain ⟨hn, hv, cell, hc⟩ := h 0 c rfl ht
      rw [← head?_eq_getElem?] at hc
      have hif : (c.isTested → ∃ cell, Spelled (ColumnKind.ofType c.type)
          (trimChars (entries.head?.getD "").toList) cell ∧ cell.holds M (row 0)) ↔
          cell.holds M (row 0) := by
        refine ⟨fun hex => ?_, fun hh _ => ⟨cell, hc, hh⟩⟩
        obtain ⟨cell', hc', hh⟩ := hex ht
        rw [hc.holds_eq hc' M (row 0), hh]
      rw [hif]
      rcases hc.readsTerm hn with ⟨rfl, ha⟩ | ⟨hso, hre⟩
      · have hs : ruleConditions (c :: cols) entries = ruleConditions cols entries.tail :=
          if_neg (by simp [condition, ha])
        exact ⟨formulas, truths, hs ▸ hr, he, by simp [Cell.holds]⟩
      · have hta : ruleConditions (c :: cols) entries
            = (c.name, condition c.type (entries.head?.getD "")) :: ruleConditions cols entries.tail :=
          if_pos (by simp [ht, condition, hso])
        refine ⟨cell.formula c.name :: formulas, cell.holds M (row 0) :: truths, ?_, ?_, by simp⟩
        · rw [hta]
          exact .cons hre hr
        · exact .cons (Cell.eval_formula M hv cell) he
    · have hs : ruleConditions (c :: cols) entries = ruleConditions cols entries.tail := if_neg (by simp [ht])
      exact ⟨formulas, truths, hs ▸ hr, he, by simp [ht]⟩

theorem readsFormula_conjunction {conditions : List (String × Condition)}
    (h : Forall₂ ReadsTerm (conditions.map fun (name, test) => (test.render name).toList) formulas) :
    ReadsFormula (conjunction conditions).toList (Formula.all formulas) := by
  cases conditions with
  | nil =>
    obtain rfl : formulas = [] := forall₂_nil_left_iff.mp h
    exact readsTerm_true.formula
  | cons f tl =>
    have hr := readsFormula_all h (by simp)
    rw [conjunction, if_neg (by simp), String.toList_intercalate, map_map]
    exact hr

/-! ### Chains of rules -/

theorem isFirst_nil (fires : Rule → Prop) (t : Rule → String) : IsFirst fires t [] "null" := Or.inr ⟨by simp, rfl⟩

theorem isFirst_cons_of_fires (h : fires rule)
    (t : Rule → String) (rules : List Rule) : IsFirst fires t (rule :: rules) (t rule) :=
  Or.inl ⟨[], rule, rules, rfl, by simp, h, rfl⟩

theorem isFirst_cons_of_not_fires {t : Rule → String}
    {rules : List Rule} {result : String} (h : ¬ fires rule) (hre : IsFirst fires t rules result) :
    IsFirst fires t (rule :: rules) result := by
  rcases hre with ⟨b, f, a, rfl, hb, hf, hr⟩ | ⟨hn, hr⟩
  · exact Or.inl ⟨rule :: b, f, a, rfl, by simpa using ⟨h, hb⟩, hf, hr⟩
  · exact Or.inr ⟨by simpa using ⟨h, hn⟩, hr⟩

/-- The text of the rules, and of the return behind them. -/
def chainText (cols : List Column) (output : Option Output) (rules : List Rule) : List Char :=
  (rules.flatMap fun rule => (ruleText cols output rule).toList) ++ "return null\n".toList

theorem toList_chain (t : Table) : (chain t).toList = chainText (columns t.inputs) t.output t.rules := by
  rw [chain, String.toList_append, String.toList_join, flatMap_map, chainText]

theorem chainText_cons (cols : List Column) (output : Option Output) (rule : Rule) (rules : List Rule) :
    chainText cols output (rule :: rules) = "if (".toList ++ ((conjunction (ruleConditions cols rule.entries)).toList ++
        (") \x7b\n    return ".toList ++ ((literal (output.bind Output.type) rule.result).toList ++
          ("\n\x7d\n\n".toList ++ chainText cols output rules)))) := by
  simp [chainText, ruleText]

/-- A rule can be read if its condition is a formula that holds exactly if the rule fires. -/
def ReadsRule (M : Meaning V) (values : String → Option V) (cols : List Column) (fires : Rule → Prop)
    (rule : Rule) : Prop :=
  ∃ f b, ReadsFormula (conjunction (ruleConditions cols rule.entries)).toList f ∧
    f.eval M values = some b ∧ (b = true ↔ fires rule)

theorem readChain?_chainText {cols : List Column} {output : Option Output} : ∀ {rules : List Rule},
    (∀ rule ∈ rules, ReadsRule M values cols fires rule) →
    (∀ rule ∈ rules, ¬ ['\n', '\x7d'] <:+: (literal (output.bind Output.type) rule.result).toList) →
    ∀ {k : Nat}, (chainText cols output rules).length < k →
    ∃ program res, readChain? k (chainText cols output rules) = some program ∧ program.run M values = some res ∧
      IsFirst fires (fun rule => literal (output.bind Output.type) rule.result) rules res
  | [], _, _, k, hf => by
    obtain ⟨k, rfl⟩ : ∃ n, k = n + 1 := ⟨k - 1, by omega⟩
    exact ⟨⟨[], "null"⟩, "null", readChain?_last k, rfl, isFirst_nil _ _⟩
  | rule :: rules, hru, hre, k, hf => by
    obtain ⟨k, rfl⟩ : ∃ n, k = n + 1 := ⟨k - 1, by omega⟩
    obtain ⟨f, b, hrea, he, hfi⟩ := hru rule (mem_cons_self ..)
    rw [chainText_cons] at hf ⊢
    have hif : "if (".toList.length = 4 := rfl
    simp only [length_append, hif] at hf
    obtain ⟨program, res, hp, hrun, hfir⟩ := readChain?_chainText (fun r hr => hru r (mem_cons_of_mem _ hr))
        (fun r hr => hre r (mem_cons_of_mem _ hr))
        (show (chainText cols output rules).length < k by omega)
    rw [readChain?_branch hrea (hre rule (mem_cons_self ..)) _ (by omega), hp, String.ofList_toList]
    refine ⟨_, if b then literal (output.bind Output.type) rule.result else res, rfl, ?_, ?_⟩
    · simp only [Program.run, runBranches, he, Option.bind_some]
      cases b with
      | true => rfl
      | false => exact hrun
    · cases b with
      | true => exact isFirst_cons_of_fires (hfi.mp rfl) _ rules
      | false => exact isFirst_cons_of_not_fires (fun h => nomatch hfi.mpr h) hfir

/-! ### Scripts of tables -/

/-- A rule fires on the columns of a script exactly if it matches on the inputs of the table. -/
theorem fires_columns_iff (M : Meaning V) (ins : List Input) (row : Nat → V) (rule : Rule) :
    Fires M (columns ins) row rule.entries ↔ rule.Matches M ins row := by
  constructor
  · intro h i inp hi ht
    obtain ⟨used, hc⟩ := getElem?_columns hi
    exact h i _ hc (by simpa [Column.isTested, Input.IsTested] using ht)
  · intro h i c hc ht
    obtain ⟨inp, hi, he, hty, -⟩ := exists_input_of_column hc
    rw [hty]
    exact h i inp hi (by simpa [Column.isTested, Input.IsTested, he] using ht)

theorem Table.IsReadable.readsRule {table : Table} (h : table.IsReadable) (M : Meaning V)
    (row : Nat → V) (hru : rule ∈ table.rules) :
    ReadsRule M (bindings (columns table.inputs) row) (columns table.inputs)
      (Rule.Matches M table.inputs row) rule := by
  have hco : ∀ i c, (columns table.inputs)[i]? = some c → c.isTested →
      IsName c.name ∧ bindings (columns table.inputs) row c.name = some (row i) ∧
      ∃ cell, Spelled (ColumnKind.ofType c.type) (trimChars (rule.entries[i]?.getD "").toList) cell := by
    intro i c hc ht
    obtain ⟨input, hi, he, hty, used, hn⟩ := exists_input_of_column hc
    have hte : input.IsTested := by simpa [Column.isTested, Input.IsTested, he] using ht
    refine ⟨?_, bindings_of_getElem? row (nodup_names table.inputs) hc ht, ?_⟩
    · rw [hn]
      exact isName_deriveName (h.names input (mem_of_getElem? hi) hte) used
    · rw [hty]
      exact h.entries rule hru i input hi hte
  obtain ⟨formulas, truths, hr, hev, hf⟩ :=
    ruleConditions_reads M (bindings (columns table.inputs) row) _ row rule.entries hco
  exact ⟨_, _, readsFormula_conjunction hr, Formula.eval_all hev, hf.trans (fires_columns_iff M table.inputs row rule)⟩

/-- Constants as values: equality is that of constants, and only numbers are in order. -/
def plainMeaning : Meaning Literal where
  value := id
  equal a b := a == b
  less
    | .number m, .number n => m < n
    | _, _ => false
  atMost
    | .number m, .number n => m ≤ n
    | _, _ => false

/-- Discounts by amount and status, with a column that is not tested between them. -/
def discountTable : Table where
  inputs := [{ expression := "order.amount", type := some "integer" },
    { expression := " " }, { expression := "customer.status", type := some "string" }]
  output := some { type := some "integer" }
  rules := [{ entries := [" 10..20 ", "=?", "gold, silver"], result := some "7" },
    { entries := [">= 5"], result := some "3" }]

theorem discountTable_isReadable : discountTable.IsReadable where
  names := by
    intro inp hin ht
    simp only [discountTable, mem_cons, not_mem_nil, or_false] at hin
    rcases hin with rfl | rfl | rfl
    · exact @IsName.of_toList _ 'a' "mount".toList (by decide +kernel) (by decide) (by decide) (by decide +kernel)
    · exact absurd (by decide +kernel) ht
    · exact @IsName.of_toList _ 's' "tatus".toList (by decide +kernel) (by decide) (by decide) (by decide +kernel)
  entries := by
    intro rule hr i inp hi ht
    simp only [discountTable, mem_cons, not_mem_nil, or_false] at hr
    have hn : ColumnKind.ofType (some "integer") = .number := by decide +kernel
    have hte : ColumnKind.ofType (some "string") = .text := by decide +kernel
    have hw : ∀ {cs : List Char}, IsWord cs → IsConstant .text cs (.text (String.ofList cs)) := .word
    match i, hi with
    | 0, hi =>
      obtain rfl := Option.some.inj hi
      rw [hn]
      rcases hr with rfl | rfl
      · exact ⟨_, @Spelled.range [] [] ['1', '0'] ['2', '0'] _ _ isGap_nil isGap_nil
          (.natural (by decide) (forall_mem_of_all (by decide)))
          (.natural (by decide) (forall_mem_of_all (by decide)))⟩
      · exact ⟨_, @Spelled.comparison .atLeast [' '] ['5'] _ (by decide) isGap_space
          (.natural (by decide) (forall_mem_of_all (by decide)))⟩
    | 1, hi =>
      obtain rfl := Option.some.inj hi
      exact absurd (by decide +kernel) ht
    | 2, hi =>
      obtain rfl := Option.some.inj hi
      rw [hte]
      rcases hr with rfl | rfl
      · exact ⟨_, .list (.cons (hw ⟨by decide, forall_mem_of_all (by decide), by decide⟩)
          (.cons (hw ⟨by decide, forall_mem_of_all (by decide), by decide⟩) .nil)) (by decide)⟩
      · exact ⟨_, .empty⟩
    | i + 3, hi => cases hi
  results := by decide +kernel

def discountRow (i : Nat) : Literal := [Literal.number 15, .flag false, .text "gold"][i]?.getD (.flag false)

/-- The script of a readable table ends with a chain of conditional returns. Read as a program and run on any
    row of values, the chain gives the result that the table decides on. -/
theorem script_decides (M : Meaning V) {table : Table} (h : table.IsReadable) (row : Nat → V) :
    script table = preamble table ++ chain table ∧
    ∃ result, runText M (bindings (columns table.inputs) row) (chain table) = some result ∧
      table.Decides M row result := by
  obtain ⟨program, result, hprogram, hrun, hfirst⟩ :=
    readChain?_chainText (fun rule hrule => h.readsRule M row hrule) h.results
      (Nat.lt_succ_self (chainText (columns table.inputs) table.output table.rules).length)
  refine ⟨rfl, result, ?_, hfirst⟩
  have hread : Program.ofText? (chain table) = some program := by
    rw [Program.ofText?, ← String.length_toList, toList_chain]
    exact hprogram
  rw [runText, hread, Option.bind_some, hrun]

theorem script_decides_discount : discountTable.IsReadable ∧
    script discountTable = preamble discountTable ++ chain discountTable ∧
    ∃ result, runText plainMeaning (bindings (columns discountTable.inputs) discountRow)
        (chain discountTable) = some result ∧
      discountTable.Decides plainMeaning discountRow result :=
  ⟨discountTable_isReadable, script_decides plainMeaning discountTable_isReadable discountRow⟩

def smallTable (type entry outputType result : String) : Table where
  inputs := [{ expression := "x", type := some type }]
  output := some { type := some outputType }
  rules := [{ entries := [entry], result := some result }]

/-- A word that spells a truth value with capitals is compared as a truth value, so the rule does not fire on
    the word itself. And a result that closes its own branch makes a chain of another table. -/
theorem script_capital_word_and_open_result : (IsWord "TRUE".toList ∧ "TRUE" ∉ ["true", "false", "null"] ∧
      runText plainMeaning (bindings (columns (smallTable "string" "TRUE" "integer" "1").inputs)
        fun _ => .text "TRUE") (chain (smallTable "string" "TRUE" "integer" "1")) = some "null") ∧
    chain (smallTable "integer" ">1" "integer" "2\n\x7d\n\nif (x <1) \x7b\n    return 3") =
      chain { smallTable "integer" ">1" "integer" "2" with
        rules := [{ entries := [">1"], result := some "2" },
          { entries := ["<1"], result := some "3" }] } := by
  refine ⟨⟨⟨by decide, forall_mem_of_all (by decide), by decide⟩, by decide, by decide +kernel⟩, by decide +kernel⟩

end ProcessForge.Decision
