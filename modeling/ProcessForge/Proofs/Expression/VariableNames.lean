import ProcessForge.Bonita.Rule
import ProcessForge.Decision.Document
import ProcessForge.Enrichment
import ProcessForge.Proofs.Expression.Marks
import ProcessForge.Proofs.Expression.Placeholders
import ProcessForge.Proofs.OrderedMap

/-! Names of variables. A path is written with marks and a wrapper wherever a model mentions a variable: in flow
    conditions, descriptors, decision documents and results of decisions. Every place has a rule of its own to
    read it. Main statement: all rules of an engine give a path the same name, the path itself for Bonita and the
    path with underscores for dots for Camunda. -/

namespace ProcessForge.Expression

open Xml List Text Enrichment

/-- Paths of variables: not empty, without tildes and closing braces, and without blanks at the ends. -/
structure IsVariable (path : List Char) : Prop where
  ne_nil : path ≠ []
  tilde : '~' ∉ path
  brace : '\x7d' ∉ path
  trimmed : trimChars path = path

def marked (p : String) : String := "~" ++ p ++ "~"

def wrapped (p : String) : String := "$\x7b" ++ p ++ "\x7d"

def dotless (p : String) : String := String.ofList (p.toList.map fun c => if c = '.' then '_' else c)

/-! ### The texts -/

theorem toList_marked (p : String) : (marked p).toList = '~' :: p.toList ++ ['~'] := by
  simp [marked]

theorem toList_wrapped (p : String) : (wrapped p).toList = interpolate p.toList := by
  simp [wrapped, interpolate]

theorem toList_wrapped_marked (p : String) : (wrapped (marked p)).toList = placeholder p.toList := by
  rw [toList_wrapped, toList_marked, placeholder]

theorem dotless_eq (p : String) : dotless p = String.ofList (underscored p.toList) := by
  simp [dotless, underscored, swapChar]

theorem trimChars_interpolate (body : List Char) : trimChars (interpolate body) = interpolate body := by
  refine trimBy_eq_self ?_ ?_
  · rintro c ⟨⟩
    decide
  · intro c hc
    obtain rfl : '\x7d' = c := by simpa [interpolate, getLast?_cons] using hc
    decide

theorem trimChars_mark (path : List Char) : trimChars ('~' :: path ++ ['~']) = '~' :: path ++ ['~'] := by
  refine trimBy_eq_self ?_ ?_
  · rintro c ⟨⟩
    decide
  · intro c hc
    obtain rfl : '~' = c := by simpa [getLast?_cons] using hc
    decide

variable {path cs : List Char}

/-- Neither a dot nor an underscore is a blank, so ends without blanks stay so. -/
theorem trimChars_underscored (h : trimChars path = path) : trimChars (underscored path) = underscored path := by
  have hb : ∀ c, isBlank (if c == '.' then '_' else c) → isBlank c := by
    intro c hc
    split at hc
    · exact absurd hc (by decide)
    · exact hc
  have hh := head?_trimBy isBlank path
  have hl := getLast?_trimBy isBlank path
  rw [← trimChars, h] at hh hl
  refine trimBy_eq_self (fun c hc => ?_) (fun c hc => ?_)
  · obtain ⟨d, hd, rfl⟩ : ∃ d, path.head? = some d ∧ (if d == '.' then '_' else d) = c := by
      simpa [underscored, swapChar] using hc
    exact Bool.eq_false_iff.mpr fun hco => by simpa [hh d hd] using hb d hco
  · obtain ⟨d, hd, rfl⟩ : ∃ d, path.getLast? = some d ∧ (if d == '.' then '_' else d) = c := by
      simpa [underscored, swapChar] using hc
    exact Bool.eq_false_iff.mpr fun hco => by simpa [hl d hd] using hb d hco

theorem not_isBlankText_wrapped (p : String) : isBlankText (wrapped p) = false := by
  rw [isBlankText, toList_wrapped, interpolate]
  simp [show isBlank '$' = false by decide]

/-! ### What the rules are made of -/

theorem unwrap?_interpolate (body : List Char) : unwrap? (interpolate body) = some body := by
  simp [unwrap?, interpolate]

theorem unwrap?_mark (path : List Char) : unwrap? ('~' :: path ++ ['~']) = none := rfl

section

variable {path : List Char} (h : IsVariable path)

include h

theorem IsVariable.isPath : IsPath path := ⟨h.ne_nil, h.brace⟩

theorem IsVariable.replaceMarked_mark (f : List Char → List Char) (rest : List Char) (hr : '~' ∉ rest) :
    replaceMarked f ('~' :: path ++ '~' :: rest) = f path ++ rest := by
  rw [cons_append, replaceMarked_marked f h.tilde h.ne_nil, replaceMarked_of_not_mem f hr]

theorem IsVariable.replaceMarked_placeholder (f : List Char → List Char) :
    replaceMarked f (placeholder path) = interpolate (f path) := by
  have hc : placeholder path = ['$', '\x7b'] ++ ('~' :: path ++ '~' :: ['\x7d']) := by
    simp [placeholder, interpolate]
  rw [hc, replaceMarked_append f (by decide), h.replaceMarked_mark f ['\x7d'] (by decide)]
  simp [interpolate]

theorem IsVariable.replaceWholeMarks_placeholder (f : List Char → List Char) :
    replaceWholeMarks f (placeholder path) = f path := by
  simpa using Expression.replaceWholeMarks_placeholder f h.isPath []

theorem IsVariable.firstMarked?_mark : firstMarked? ('~' :: path ++ ['~']) = some path := by
  have hs : splitAtChar '~' ('~' :: path ++ ['~']) = [[], path, []] := by
    have hb := splitAtChar_append_separator [] h.tilde
    exact (splitAtChar_append_separator (path ++ ['~']) (not_mem_nil : '~' ∉ [])).trans (congrArg ([] :: ·) hb)
  rw [firstMarked?, hs]
  simp [firstPiece?, h.ne_nil]

theorem IsVariable.wholeBraced?_placeholder : wholeBraced? (placeholder path) = some ('~' :: path ++ ['~']) := by
  have hbr : '\x7d' ∉ '~' :: path ++ ['~'] := by simpa using h.brace
  have hb : bracedAt? (placeholder path) = some ('~' :: path ++ ['~']) := bracedAt?_append hbr []
  have hd : dropFinalNewline (placeholder path) = placeholder path := by
    simp [dropFinalNewline, placeholder, interpolate, getLast?_cons]
  rw [wholeBraced?, hd, bracedExactly?, hb]
  simp [placeholder, interpolate]

end

theorem bracedAt?_of_not_mem (h : '\x7d' ∉ cs) : bracedAt? cs = none := by
  cases hb : bracedAt? cs with
  | none => rfl
  | some b =>
    obtain ⟨-, tl, rfl⟩ := eq_of_bracedAt? hb
    exact absurd (by simp) h

theorem replaceInterpolations_of_not_mem (f : List Char → List Char) (h : '\x7d' ∉ cs) :
    replaceInterpolations f cs = cs := by
  rw [replaceInterpolations, replaceBraced]
  induction cs with
  | nil => rfl
  | cons c tl ih =>
    rw [replaceBracedFrom, bracedAt?_of_not_mem h]
    exact congrArg (c :: ·) (ih fun hm => h (mem_cons_of_mem c hm))

theorem not_mem_underscored (h : '\x7d' ∉ path) : '\x7d' ∉ underscored path := by
  intro hm
  obtain ⟨c, hc, heq⟩ := mem_map.mp hm
  split at heq
  · exact absurd heq (by decide)
  · exact h (heq ▸ hc)

/-! ### The rules -/

section

variable {p : String} (h : IsVariable p.toList)

include h

theorem IsVariable.flattenCamunda : flattenCamunda (wrapped (marked p)) = wrapped (dotless p) := by
  rw [flattenCamunda_eq, toList_wrapped_marked, h.replaceMarked_placeholder, dotless_eq]
  exact String.toList_inj.mp (by simp [toList_wrapped])

theorem IsVariable.camundaDescriptorText : camundaDescriptorText (wrapped (marked p)) = wrapped (dotless p) := by
  rw [Expression.camundaDescriptorText, toList_wrapped_marked, h.replaceWholeMarks_placeholder, dotless_eq]
  exact String.toList_inj.mp (by simp [toList_wrapped])

theorem IsVariable.trim_mark : trimBy (· == '~') p.toList = p.toList := by
  refine trimBy_eq_self (fun c hc => ?_) (fun c hc => ?_)
  · exact beq_eq_false_iff_ne.mpr fun heq => h.tilde (heq ▸ mem_of_mem_head? hc)
  · exact beq_eq_false_iff_ne.mpr fun heq => h.tilde (heq ▸ mem_of_mem_getLast? hc)

theorem IsVariable.camundaVariable_marked : camundaVariable (marked p) = dotless p := by
  simp only [camundaVariable, toList_marked, trimChars_mark, unwrap?_mark]
  rw [h.replaceMarked_mark id [] (by decide), append_nil, id, h.trim_mark, dotless_eq]

theorem IsVariable.camundaVariable_wrapped : camundaVariable (wrapped (marked p)) = dotless p := by
  simp only [camundaVariable, toList_wrapped, trimChars_interpolate, unwrap?_interpolate, toList_marked, trimChars_mark]
  rw [h.replaceMarked_mark id [] (by decide), append_nil, id, h.trim_mark, dotless_eq]

theorem IsVariable.camundaDecisionText : camundaDecisionText (wrapped (marked p)) = dotless p := by
  rw [Expression.camundaDecisionText, toList_wrapped_marked, h.replaceWholeMarks_placeholder,
    replaceInterpolations_of_not_mem _ (not_mem_underscored h.brace), dotless_eq]

theorem IsVariable.flattenBonita : flattenBonita (wrapped (marked p)) = p := by
  rw [Expression.flattenBonita, not_isBlankText_wrapped, toList_wrapped_marked, h.replaceMarked_placeholder]
  simp [trimChars_interpolate, unwrap?_interpolate, h.trimmed]

theorem IsVariable.bonitaDescriptorText : bonitaDescriptorText (wrapped (marked p)) = p := by
  rw [Expression.bonitaDescriptorText, toList_wrapped_marked, h.wholeBraced?_placeholder, Option.bind_some,
    wholeMark?_append h.ne_nil]
  simp [h.trimmed]

theorem IsVariable.bonitaDecisionText : bonitaDecisionText (wrapped (marked p)) = p := by
  rw [Expression.bonitaDecisionText, toList_wrapped_marked, h.replaceWholeMarks_placeholder, id,
    replaceInterpolations_of_not_mem _ h.brace, String.ofList_toList]

theorem IsVariable.resultVariable? : resultVariable? (wrapped (marked p)) = some p := by
  rw [Expression.resultVariable?, not_isBlankText_wrapped]
  simp only [toList_wrapped, trimChars_interpolate, unwrap?_interpolate, toList_marked, trimChars_mark,
    h.firstMarked?_mark]
  simp [h.trimmed]

end

/-! ### Where the rules are used -/

theorem node?_nameDecisions (m : Model) (id : String) : (nameDecisions m).node? id = (m.node? id).map fun n =>
      if n.kind == .businessRuleTask then { n with
          decision := n.decision.map Reference.decisionName
          resultVariable := n.resultVariable.map camundaVariable }
      else n := by
  simp only [Model.node?, nameDecisions, Model.mapProcesses, findSome?_map, Function.comp_def,
    OrderedMap.value?_mapValues]
  exact map_findSome?.symm

/-- A path has one name for each engine. For Camunda a flow condition and a descriptor keep the wrapper around the
    name, and the variable of a tested column and the result of a business rule task are the name. For Bonita all
    of them are the path. -/
theorem path_has_one_name {p : String} (h : IsVariable p.toList) :
    (flattenCamunda (wrapped (marked p)) = wrapped (dotless p) ∧
      camundaDescriptorText (wrapped (marked p)) = wrapped (dotless p) ∧
      camundaVariable (wrapped (marked p)) = dotless p ∧
      camundaVariable (marked p) = dotless p ∧
      camundaDecisionText (wrapped (marked p)) = dotless p) ∧
    (flattenBonita (wrapped (marked p)) = p ∧ bonitaDescriptorText (wrapped (marked p)) = p ∧
      bonitaDecisionText (wrapped (marked p)) = p ∧
      resultVariable? (wrapped (marked p)) = some p) ∧
    (∀ m id n, m.node? id = some n → n.kind = .businessRuleTask → n.resultVariable = some (wrapped (marked p)) →
      ((nameDecisions m).node? id).bind FlowNode.resultVariable = some (dotless p)) ∧
    (∀ e expression text : Element, e.elements.find? (fun d => d.tag.name.stem == "inputExpression") = some expression →
      expression.elements.find? (fun d => d.tag.name.stem == "text") = some text →
      text.fullText = wrapped (marked p) → Decision.inputVariable e = dotless p) ∧
    ∀ n table, n.resultVariable = some (wrapped (marked p)) → Bonita.outputVariable? n table = some p := by
  refine ⟨⟨h.flattenCamunda, h.camundaDescriptorText, h.camundaVariable_wrapped, h.camundaVariable_marked,
      h.camundaDecisionText⟩,
    ⟨h.flattenBonita, h.bonitaDescriptorText, h.bonitaDecisionText, h.resultVariable?⟩, ?_, ?_, ?_⟩
  · intro m id n hnode hkind hresult
    simp [node?_nameDecisions, hnode, hkind, hresult, h.camundaVariable_wrapped]
  · intro e expression text hexpression htext hfull
    simp only [Decision.inputVariable, hexpression, htext, hfull, h.camundaDecisionText]
    rw [dotless_eq, trim, String.toList_ofList, trimChars_underscored h.trimmed]
  · intro n table hresult
    have hne : p ≠ "" := by
      rintro rfl
      exact h.ne_nil rfl
    simp [Bonita.outputVariable?, hresult, h.resultVariable?, hne]

/-- Dots, dollar signs, opening braces and line ends are part of a path. -/
theorem path_has_one_name_strange :
    flattenCamunda "$\x7b~order.$\x7bitems\n.total~\x7d" = "$\x7border_$\x7bitems\n_total\x7d" ∧
    bonitaDecisionText "$\x7b~order.$\x7bitems\n.total~\x7d" = "order.$\x7bitems\n.total" := by
  have hpath : IsVariable "order.$\x7bitems\n.total".toList := ⟨by decide, by decide, by decide, by decide +kernel⟩
  obtain ⟨⟨hflow, -⟩, ⟨-, -, hdecision, -⟩, -⟩ := path_has_one_name hpath
  exact ⟨hflow.trans (by decide +kernel), hdecision⟩

end ProcessForge.Expression
