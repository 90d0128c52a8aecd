import ProcessForge.Decision.Reader
import Mathlib.Data.List.Forall2

/-! Columns and cells of decision tables that are read from documents. The tested columns and the entries of rules stand
    in document order. Of several result columns the first one is declared, but of several results in a rule the last
    one is taken. Main statement: this is what is read from every document, so that a result belongs to the
    declared column just if the first and the last result cell of its rule have the same text. -/

namespace ProcessForge.Decision

open Xml List Option

/-! ### The first table -/

mutual

theorem firstNamed?_snd (s : String) : ∀ (parent : Option Tag) (n : Node),
    (firstNamed? s parent n).map Prod.snd = n.elements.find? fun e => e.tag.name.stem == s
  | parent, .element tag ns => by
    rw [firstNamed?, Node.elements]
    by_cases ht : (tag.name.stem == s)
    · simp [ht]
    · simpa [ht] using firstNamedIn?_snd s (some tag) ns
  | _, .text _ => by simp [firstNamed?, Node.elements]
  | _, .comment _ => by simp [firstNamed?, Node.elements]
  | _, .instruction _ _ => by simp [firstNamed?, Node.elements]

theorem firstNamedIn?_snd (s : String) : ∀ (parent : Option Tag) (ns : List Node),
    (firstNamedIn? s parent ns).map Prod.snd = (elementsBelow ns).find? fun e => e.tag.name.stem == s
  | _, [] => by simp [firstNamedIn?, elementsBelow]
  | parent, n :: tl => by
    rw [firstNamedIn?, elementsBelow, find?_append, ← firstNamed?_snd s parent n, ← firstNamedIn?_snd s parent tl]
    cases firstNamed? s parent n <;> simp

end

/-! ### Children by name -/

/-- The children of an element with a name, in any namespace and in document order. -/
def childrenNamed (stem : String) (e : Element) : List Element :=
  e.children.filter fun child => child.tag.name.stem == stem

/-- What a rule says: its entries in the order of their cells, and the text of its last result cell. -/
structure Rule.IsReadFrom (rule : Rule) (e : Element) : Prop where
  entries : rule.entries = (childrenNamed "inputEntry" e).map cellText
  result : rule.result = (childrenNamed "outputEntry" e).getLast?.map cellText

/-- What a table says: its tested columns in order, its first result column, and its rules in order. -/
structure Table.IsReadFrom (table : Table) (e : Element) : Prop where
  inputs : table.inputs = (childrenNamed "input" e).map readInput
  output : table.output = (childrenNamed "output" e).head?.map fun column =>
    { name := column.tag.get? "name", type := column.tag.get? "typeRef" }
  rules : Forall₂ Rule.IsReadFrom table.rules (childrenNamed "rule" e)

/-- Cells one after the other: entries are added at the end, and a result replaces the one before. -/
theorem foldl_cells (cells : List Element) : ∀ rule : Rule, cells.foldl (fun rule cell =>
      if cell.tag.name.stem == "inputEntry" then { rule with entries := rule.entries ++ [cellText cell] }
      else if cell.tag.name.stem == "outputEntry" then { rule with result := some (cellText cell) } else rule) rule
    = { entries := rule.entries ++ (cells.filter fun c => c.tag.name.stem == "inputEntry").map cellText
        result := ((cells.filter fun c => c.tag.name.stem == "outputEntry").getLast?.map cellText).or
          rule.result } := by
  induction cells with
  | nil => simp
  | cons cell tl ih =>
    intro rule
    rw [foldl_cons, ih]
    by_cases hin : cell.tag.name.stem = "inputEntry"
    · simp [hin]
    · by_cases ho : cell.tag.name.stem = "outputEntry"
      · cases hl : (tl.filter fun c => c.tag.name.stem == "outputEntry").getLast? <;>
          simp [ho, getLast?_cons, hl]
      · simp [hin, ho]

theorem isReadFrom_readRule (e : Element) : (readRule e).IsReadFrom e := by
  have hr : readRule e = _ := foldl_cells e.children {}
  rw [hr]
  exact ⟨by simp [childrenNamed], by simp [childrenNamed]⟩

theorem foldl_parts (ps : List Element) : ∀ t : Table, ps.foldl readPart t = { t with
        inputs := t.inputs ++ (ps.filter fun c => c.tag.name.stem == "input").map readInput
        output := t.output.or ((ps.filter fun c => c.tag.name.stem == "output").head?.map fun col =>
          { name := col.tag.get? "name", type := col.tag.get? "typeRef" })
        rules := t.rules ++ (ps.filter fun c => c.tag.name.stem == "rule").map readRule } := by
  induction ps with
  | nil => simp
  | cons p tl ih =>
    intro t
    rw [foldl_cons, ih, readPart]
    split
    · next hn => simp [hn]
    · next hn => cases ho : t.output <;> simp [hn, ho]
    · next hn => simp [hn]
    · next hin ho hr =>
      have hot : ∀ {s : String}, ¬ p.tag.name.stem = s → (p.tag.name.stem == s) = false := fun h => beq_false_of_ne h
      simp [hot hin, hot ho, hot hr]

theorem isReadFrom_readTable (parent : Option Tag) (e : Element) : (readTable parent e).IsReadFrom e := by
  rw [readTable, foldl_parts]
  refine ⟨by simp [childrenNamed], by simp [childrenNamed], ?_⟩
  simp only [nil_append, childrenNamed]
  rw [forall₂_map_left_iff, forall₂_same]
  exact fun rule _ => isReadFrom_readRule rule

/-! ### Documents -/

/-- The result of a rule belongs to the first result column: it is the text of the first result cell. -/
def Rule.IsOfFirstColumn (rule : Rule) (e : Element) : Prop :=
  rule.result = (childrenNamed "outputEntry" e).head?.map cellText

/-- The first and the last result cell of a rule have the same text. -/
def HasOneResult (e : Element) : Prop :=
  (childrenNamed "outputEntry" e).head?.map cellText = (childrenNamed "outputEntry" e).getLast?.map cellText

theorem Table.IsReadFrom.isOfFirstColumn_iff {t : Table} {e : Element} (h : t.IsReadFrom e) :
    Forall₂ Rule.IsOfFirstColumn t.rules (childrenNamed "rule" e) ↔
      ∀ rule ∈ childrenNamed "rule" e, HasOneResult rule := by
  have hr := h.rules
  generalize childrenNamed "rule" e = es, t.rules = rules at hr
  induction hr with
  | nil => simp
  | @cons rule element rules es hru _ ih =>
    have hif : rule.IsOfFirstColumn element ↔ HasOneResult element := by
      rw [Rule.IsOfFirstColumn, hru.result]
      exact eq_comm
    rw [forall₂_cons, forall_mem_cons]
    exact and_congr hif ih

/-- From every document the first decision table is read, if there is one: its tested columns, the first of its result
    columns, and its rules with their entries in order and the last of their results. The results all belong to
    the declared column just if no rule has another text in its last result cell than in its first. -/
theorem results_of_declared_column_iff (d : Document) :
    (ofDocument? d = none ↔ ∀ e ∈ d.root.elements, e.tag.name.stem ≠ "decisionTable") ∧
    ∀ table, ofDocument? d = some table → ∃ before e after,
      d.root.elements = before ++ e :: after ∧ e.tag.name.stem = "decisionTable" ∧
      (∀ earlier ∈ before, earlier.tag.name.stem ≠ "decisionTable") ∧ table.IsReadFrom e ∧
      (Forall₂ Rule.IsOfFirstColumn table.rules (childrenNamed "rule" e) ↔
        ∀ rule ∈ childrenNamed "rule" e, HasOneResult rule) := by
  have hfirst : (firstNamed? "decisionTable" none d.root.node).map Prod.snd
      = d.root.elements.find? fun e => e.tag.name.stem == "decisionTable" :=
    (firstNamed?_snd "decisionTable" none d.root.node).trans (by rw [Element.node, Node.elements]; rfl)
  constructor
  · rw [ofDocument?, map_eq_none_iff, ← map_eq_none_iff (f := Prod.snd), hfirst, find?_eq_none]
    simp
  · intro table htable
    obtain ⟨⟨parent, e⟩, hfound, rfl⟩ := map_eq_some_iff.mp htable
    rw [hfound, map_some] at hfirst
    obtain ⟨hname, before, after, helements, hbefore⟩ := find?_eq_some_iff_append.mp hfirst.symm
    have hread := isReadFrom_readTable parent e
    exact ⟨before, e, after, helements, by simpa using hname, by simpa using hbefore, hread, hread.isOfFirstColumn_iff⟩

def cell (stem : String) (content : List Node) : Element := ⟨{ name := .plain stem }, content⟩

def resultColumn (name : String) : Element := ⟨{ name := .plain "output", attributes := [⟨.plain "name", name⟩] }, []⟩

def loanRule : Element := cell "rule" [(cell "outputEntry" [.text "high"]).node, (cell "outputEntry" [.text "7"]).node]

/-- A document with two result columns and one rule. -/
def loanDocument : Document where
  root := cell "decision" [(cell "decisionTable"
    [(resultColumn "risk").node, (resultColumn "rate").node, loanRule.node]).node]

/-- With two result columns the first one is declared, and the rule gives the result for the second one. -/
theorem result_of_other_column : ∃ table, ofDocument? loanDocument = some table ∧
    table.output = some { name := some "risk" } ∧ table.rules = [{ result := some "7" }] ∧
    (childrenNamed "outputEntry" loanRule).map cellText = ["high", "7"] ∧
    ¬ Forall₂ Rule.IsOfFirstColumn table.rules [loanRule] := by
  refine ⟨{ output := some { name := some "risk" }, rules := [{ result := some "7" }] }, by decide +kernel, rfl, rfl,
    by decide +kernel, fun hfirst => ?_⟩
  have hrule : some "7" = (childrenNamed "outputEntry" loanRule).head?.map cellText := (forall₂_cons.mp hfirst).1
  exact absurd hrule (by decide +kernel)

end ProcessForge.Decision
