import ProcessForge.Proofs.ContractTree

/-! The operations of a contract against its input tree. The script of an operation is read as syntax: a value
    that is taken from a path, or a nested object whose fields are filled from paths. Main statement: an
    operation reads paths below its own input only, unless its field has the class of the contract as its type.
    The tree does not expand such a field, but its script copies the fields of the class all the same. -/

namespace ProcessForge

open List Text

/-- Whether names lead down from a level of inputs. -/
def ContractInput.declares : List ContractInput → List String → Bool
  | _, [] => true
  | level, name :: rest => level.any fun input => input.name == name && declares input.inputs rest

def ContractInput.only (above below : ContractInput) : ContractInput :=
  .input above.name above.type above.object [below]

namespace ContractInput

theorem declares_cons {l : List ContractInput} {name : String} {tl : List String} : declares l (name :: tl) ↔
      ∃ i ∈ l, i.name = name ∧ declares i.inputs tl := by
  simp [declares]

theorem declares_mono {l ms : List ContractInput} (h : l ⊆ ms) {p : List String}
    (hp : declares l p) : declares ms p := by
  cases p with
  | nil => rfl
  | cons name tl =>
    obtain ⟨i, hm, hr⟩ := declares_cons.mp hp
    exact declares_cons.mpr ⟨i, h hm, hr⟩

theorem declares_of_only {above below : ContractInput} (h : below ∈ above.inputs) {p : List String}
    (hp : declares [above.only below] p) : declares [above] p := by
  cases p with
  | nil => rfl
  | cons name tl =>
    obtain ⟨i, hm, hn, hr⟩ := declares_cons.mp hp
    rw [mem_singleton.mp hm] at hn hr
    have hb : [below] ⊆ above.inputs := by simpa using h
    exact declares_cons.mpr ⟨above, mem_singleton_self _, hn, declares_mono hb hr⟩

end ContractInput

/-! ### Scripts -/

/-- Conversions of a value that is read. -/
inductive Conversion where
  | none
  | toLong
  | toFloat
  deriving DecidableEq, Repr

/-- Reading of the value at a path. -/
structure Reading where
  path : List String
  conversion : Conversion := .none
  deriving DecidableEq, Repr

/-- Script of an operation: a value, or a nested object of a type. The object is only made if the field of the
    input is there. It is that of the same field of the owner, or a new one, and gets its parts one by one. -/
inductive CopyScript where
  | value (reading : Reading)
  | composition (input field holder owner type : String) (parts : List (String × Reading))
  deriving DecidableEq, Repr

def Reading.text (r : Reading) : String :=
  let path := ".".intercalate r.path
  let safe := ClassModel.safePath path
  match r.conversion with
  | .none => safe
  | .toLong => safe ++ "?.trim() ? " ++ path ++ ".toLong() : null"
  | .toFloat => safe ++ "?.toFloat()"

namespace CopyScript

def text : CopyScript → String
  | value reading => reading.text
  | composition input field holder owner type parts =>
    "if (!" ++ input ++ "?." ++ field ++ ") \x7b\n\treturn null\n\x7d\ndef " ++ holder ++ " = "
      ++ owner ++ "." ++ field ++ " ?: new " ++ type ++ "()\n"
      ++ String.join (parts.map fun part => holder ++ "." ++ part.1 ++ " = " ++ part.2.text ++ "\n")
      ++ "return " ++ holder

def reads : CopyScript → List (List String)
  | value reading => [reading.path]
  | composition input field _ _ _ parts => [input, field] :: parts.map fun part => part.2.path

end CopyScript

namespace ClassModel

variable (m : ClassModel)

/-! ### Scripts of fields -/

def conversion (type : Option String) : Conversion :=
  match m.plainType? type with
  | some "long" => .toLong
  | some "float" => .toFloat
  | _ => .none

/-- A part of a nested object: one of its fields, with the reading below the field of the input. -/
def part (input field : String) (f : ClassField) : String × Reading :=
  let name := trim f.name
  (name, { path := [input, field, name], conversion := if m.isClass f.type then .none else m.conversion f.type })

/-- The script that copies one field of an object. -/
def fieldScript (object : String) (f : ClassField) : CopyScript :=
  let input := object ++ "Input"
  let name := trim f.name
  if m.isClass f.type then
    .composition input name (uncapitalize (classOf f) ++ "Var") object (Defaults.modelClass (classOf f))
      ((m.namedFields (classOf f)).map (m.part input name))
  else .value { path := [input, name], conversion := m.conversion f.type }

theorem readContent_eq (path : List String) (type : Option String) : m.readContent (".".intercalate path) type
      = Reading.text { path := path, conversion := m.conversion type } := by
  simp only [readContent, Reading.text, conversion]
  split <;> simp_all

theorem copyLine_eq (ho i field : String) : m.copyLine ho (i ++ "." ++ field)
      = (fun part => ho ++ "." ++ part.1 ++ " = " ++ part.2.text ++ "\n") ∘ m.part i field := by
  funext f
  have hp : i ++ "." ++ field ++ "." ++ trim f.name = ".".intercalate [i, field, trim f.name] := rfl
  simp only [copyLine, part, Function.comp_apply, hp]
  by_cases hc : m.isClass f.type
  · rw [if_pos hc, if_pos hc]
    rfl
  · rw [if_neg hc, if_neg hc, readContent_eq]

theorem content_eq_text (object c : String) (f : ClassField) :
    (m.fieldOperation object c f).content = (m.fieldScript object f).text := by
  unfold fieldOperation fieldScript
  dsimp only
  by_cases hc : m.isClass f.type
  · rw [if_pos hc, if_pos hc]
    unfold CopyScript.text compositionScript classOf
    dsimp only
    rw [map_map, copyLine_eq]
  · have hp : ∀ i fd : String, i ++ "." ++ fd = ".".intercalate [i, fd] := fun _ _ => rfl
    rw [if_neg hc, if_neg hc, hp, readContent_eq]
    rfl

/-! ### Reading below the own input -/

variable {root : ContractInput} {f : ClassField} {object className c : String}

/-- Below the only input of a field there is what the input of the field declares. -/
theorem declares_only {i : ContractInput} {rest : List String} :
    ContractInput.declares [root.only i] (root.name :: i.name :: rest) = ContractInput.declares i.inputs rest := by
  simp [ContractInput.declares, ContractInput.only, ContractInput.name, ContractInput.inputs]

theorem reads_fieldScript (object : String) (f : ClassField) :
    (m.fieldScript object f).reads = [object ++ "Input", trim f.name] ::
      (if m.isClass f.type then (m.namedFields (classOf f)).map fun g =>
        [object ++ "Input", trim f.name, trim g.name] else []) := by
  unfold fieldScript
  by_cases hc : m.isClass f.type <;> simp [hc, CopyScript.reads, part, Function.comp_def]

theorem type_eq_some_classOf (h : m.isClass f.type) : f.type = some (classOf f) := by
  cases ht : f.type with
  | none => simp [isClass, ht] at h
  | some type => simp [classOf, ht]

theorem declares_inputsBelow {above type : String} (h : type ≠ above) {g : ClassField} (hg : g ∈ m.namedFields type) :
    ContractInput.declares (m.inputsBelow [above] type) [trim g.name] := by
  rw [inputsBelow_of_not_mem (by simpa using h)]
  have hn := (inputFor_isInputOf (m := m) [type, above] g).1
  exact ContractInput.declares_cons.mpr ⟨_, mem_map_of_mem hg, hn, rfl⟩

/-- All that the script of a field reads lies below the input of the field, just if the type of the field is not
    the class that the field belongs to. -/
theorem fieldScript_reads_iff (hr : root.name = object ++ "Input") (hcl : m.isClass (some className))
    (hf : f ∈ m.namedFields className) : (∀ p ∈ (m.fieldScript object f).reads,
      ContractInput.declares [root.only (m.inputFor [className] f)] p) ↔ f.type ≠ some className := by
  have hna := (inputFor_isInputOf (m := m) [className] f).1
  rw [reads_fieldScript, ← hr, ← hna]
  simp only [forall_mem_cons, declares_only]
  by_cases hc : m.isClass f.type
  · rw [if_pos hc, forall_mem_map]
    simp only [declares_only, inputFor_inputs, if_pos hc]
    have ht := type_eq_some_classOf m hc
    constructor
    · -- the field is one of those that its own script copies
      rintro ⟨-, hp⟩ heq
      have hs : classOf f = className := by simpa [ht] using heq
      have := hp f (hs ▸ hf)
      rw [hs, inputsBelow_of_mem (mem_singleton_self _)] at this
      exact absurd this (by simp [ContractInput.declares])
    · intro hn
      refine ⟨rfl, fun g hg => declares_inputsBelow m ?_ hg⟩
      rintro rfl
      exact hn ht
  · have hn : f.type ≠ some className := by
      intro heq
      exact hc (heq ▸ hcl)
    simpa [hc, ContractInput.declares] using hn

/-- Root of the input tree of a contract: one input for every named field. -/
def contractRoot (object className : String) : ContractInput :=
  .input (object ++ "Input") "COMPLEX" (some object) ((m.namedFields className).map (m.inputFor [className]))

theorem contract?_eq (ho : object ≠ "") (hc : m.isClass (some c)) : m.contract? object c = some {
      root := m.contractRoot object c
      operations := (m.namedFields c).map (m.fieldOperation object c) } := by
  have hin : m.contractInputs c = (m.namedFields c).map (m.inputFor [c]) := inputsBelow_of_not_mem not_mem_nil
  simp [contract?, ho, hc, contractRoot, hin]

/-- Operations read what their inputs declare, with one exception. A contract is there for every variable and
    every class, with one operation and one input for each named field, in the order of the fields. The content of
    the operation is the text of its script, and all paths that the script reads lie below the input of the same
    field just if the type of the field is not the class itself. -/
theorem operations_read_declared {object className : String} (hobject : object ≠ "")
    (hclass : m.isClass (some className) = true) :
    ∃ c, m.contract? object className = some c ∧ c.operations.length = (m.namedFields className).length ∧
      c.root.inputs.length = (m.namedFields className).length ∧
      ∀ (i : Nat) (f : ClassField), (m.namedFields className)[i]? = some f →
        ∃ op input, c.operations[i]? = some op ∧ c.root.inputs[i]? = some input ∧
          op.content = (m.fieldScript object f).text ∧
          ((∀ path ∈ (m.fieldScript object f).reads, ContractInput.declares [c.root.only input] path = true) ↔
            f.type ≠ some className) ∧
          (f.type ≠ some className →
            ∀ path ∈ (m.fieldScript object f).reads, ContractInput.declares [c.root] path = true) := by
  have hroot : (contractRoot m object className).name = object ++ "Input" := rfl
  refine ⟨_, contract?_eq m hobject hclass, by simp, by simp [contractRoot, ContractInput.inputs], ?_⟩
  intro i f hf
  have hmem := mem_of_getElem? hf
  have hiff := fieldScript_reads_iff m hroot hclass hmem
  refine ⟨m.fieldOperation object className f, m.inputFor [className] f, by simp [hf],
    by simp [contractRoot, ContractInput.inputs, hf], content_eq_text m object className f, hiff,
    fun hne path hpath => ?_⟩
  have hbelow : m.inputFor [className] f ∈ (contractRoot m object className).inputs := mem_map_of_mem hmem
  exact ContractInput.declares_of_only hbelow (hiff.mpr hne path hpath)

/-- Orders of customers, who know their last order: each class leads back to itself through the other. -/
def orders : ClassModel where
  classes := [("Order", { name := "Order", fields := [⟨"customer", some "Customer"⟩, ⟨"number", some "Long"⟩] }),
    ("Customer", { name := "Customer", fields := [⟨"name", some "String"⟩, ⟨"last", some "Order"⟩] })]

theorem operations_read_declared_orders : ∃ c, orders.contract? "order" "Order" = some c ∧
      ∀ path ∈ (orders.fieldScript "order" ⟨"customer", some "Customer"⟩).reads,
        ContractInput.declares [c.root] path = true := by
  obtain ⟨c, hc, -, -, hreads⟩ :=
    operations_read_declared orders (by decide : "order" ≠ "") (by decide : orders.isClass (some "Order") = true)
  obtain ⟨-, -, -, -, -, -, hdeclared⟩ := hreads 0 ⟨"customer", some "Customer"⟩ (by decide +kernel)
  exact ⟨c, hc, hdeclared (by decide)⟩

/-- Nodes of a list: a class with a field of its own type. -/
def nodes : ClassModel where
  classes := [("Node", { name := "Node", fields := [⟨"next", some "Node"⟩, ⟨"total", some "Integer"⟩] })]

/-- The script for the field of its own type reads a path that is not in the tree. -/
theorem own_type_reads_undeclared :
    ∃ c op, nodes.contract? "node" "Node" = some c ∧ op ∈ c.operations ∧ op.fieldName = "next" ∧
      op.content = "if (!nodeInput?.next) \x7b\n\treturn null\n\x7d\n"
        ++ "def nodeVar = node.next ?: new com.company.model.Node()\n"
        ++ "nodeVar.next = nodeInput?.next?.next\nnodeVar.total = nodeInput?.next?.total\nreturn nodeVar" ∧
      ContractInput.declares [c.root] ["nodeInput", "next"] = true ∧
      ContractInput.declares [c.root] ["nodeInput", "next", "total"] = false := by
  refine ⟨_, nodes.fieldOperation "node" "Node" ⟨"next", some "Node"⟩,
    contract?_eq nodes (by decide) (by decide), ?_, ?_, ?_, ?_, ?_⟩
  · exact mem_map_of_mem (by decide +kernel)
  · decide +kernel
  · decide +kernel
  · decide +kernel
  · decide +kernel

end ClassModel

end ProcessForge
