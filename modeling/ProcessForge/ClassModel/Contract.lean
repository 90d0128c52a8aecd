import ProcessForge.ClassModel.Model
import ProcessForge.Defaults
import ProcessForge.Text.Blank
import ProcessForge.Text.Case
import ProcessForge.Text.Search

/-! Contracts of user tasks. A contract has a tree of inputs, one for every field of the class of a
    business object, and operations that copy the submitted values to the fields of the object. A class
    that already stands above an input is not expanded again. -/

namespace ProcessForge

inductive ContractInput where
  | input (name type : String) (object : Option String) (inputs : List ContractInput)
  deriving Repr, Inhabited

namespace ContractInput

def name : ContractInput → String
  | input name _ _ _ => name

def type : ContractInput → String
  | input _ type _ _ => type

def object : ContractInput → Option String
  | input _ _ object _ => object

def inputs : ContractInput → List ContractInput
  | input _ _ _ inputs => inputs

end ContractInput

/-- Copies a submitted value to a field of a business object. -/
structure FieldOperation where
  variableName : String
  className : String
  fieldName : String
  inputName : String
  content : String
  returnType : Option String := none
  inputType : String
  composedType : Option String := none
  deriving DecidableEq, Repr, Inhabited

def FieldOperation.setter (op : FieldOperation) : String := "set" ++ Text.capitalize op.fieldName

structure Contract where
  root : ContractInput
  operations : List FieldOperation := []
  deriving Repr, Inhabited

namespace ClassModel

/-! ### Types -/

/-- Type of a contract input for a known field type. -/
def contractTypeOf : String → String
  | "boolean" | "bool" => "BOOLEAN"
  | "localdate" | "date" => "LOCALDATE"
  | "localdatetime" | "datetime" => "LOCALDATETIME"
  | "offsetdatetime" => "OFFSETDATETIME"
  | "double" | "float" => "DECIMAL"
  | "integer" | "int" => "INTEGER"
  | _ => "TEXT"

def valueClassOf? : String → Option String
  | "boolean" | "bool" => some "java.lang.Boolean"
  | "localdate" | "date" => some "java.time.LocalDate"
  | "localdatetime" | "datetime" => some "java.time.LocalDateTime"
  | "offsetdatetime" => some "java.time.OffsetDateTime"
  | "double" => some "java.lang.Double"
  | "float" => some "java.lang.Float"
  | "integer" | "int" => some "java.lang.Integer"
  | "long" => some "java.lang.Long"
  | _ => none

/-- A field type in small letters; nothing for enumerations and missing types. -/
def plainType? (m : ClassModel) (type : Option String) : Option String :=
  if m.isEnum type then none
  else match type with
    | some "" => none
    | some type => some (Text.lower type)
    | none => none

def contractType (m : ClassModel) (type : Option String) : String :=
  match m.plainType? type with
  | some type => contractTypeOf type
  | none => "TEXT"

/-- Class of the values of a field, if it is known. -/
def returnType? (m : ClassModel) (type : Option String) : Option String := (m.plainType? type).bind valueClassOf?

def operatorInputType (m : ClassModel) (type : Option String) : String :=
  if m.isClass type then Defaults.modelClass (type.getD "")
  else (m.returnType? type).getD "java.lang.String"

def namedFields (m : ClassModel) (name : String) : List ClassField :=
  if name.isEmpty then [] else (m.fieldsOf name).filter fun f => !Text.isBlankText f.name

/-! ### Inputs -/

/-- Classes of the model that do not stand above an input. -/
def unvisited (m : ClassModel) (visited : List String) : List String :=
  m.classes.keys.filter fun name => !visited.contains name

/-- Only classes of the model have fields. -/
theorem mem_keys_of_mem_namedFields {m : ClassModel} {name : String} {f : ClassField}
    (h : f ∈ m.namedFields name) : name ∈ m.classes.keys := by
  have hkey : ∀ classes : OrderedMap ClassDef, (classes.value? name).isSome = true →
      name ∈ classes.keys := by
    intro classes
    induction classes with
    | nil => simp [OrderedMap.value?]
    | cons entry rest ih =>
      by_cases hk : entry.1 = name
      · simp [OrderedMap.keys, hk]
      · intro hv
        have hrest := ih (by simpa [OrderedMap.value?, hk] using hv)
        simpa [OrderedMap.keys] using Or.inr hrest
  apply hkey
  cases hd : m.classes.value? name with
  | none => simp [namedFields, fieldsOf, hd] at h
  | some c => rfl

/-- A class that is visited for the first time leaves fewer classes to visit. -/
theorem unvisited_cons_lt {m : ClassModel} {visited : List String} {name : String}
    (hm : name ∈ m.classes.keys) (hn : name ∉ visited) :
    (m.unvisited (name :: visited)).length < (m.unvisited visited).length := by
  have hsplit : m.unvisited (name :: visited) = (m.unvisited visited).filter (· != name) := by
    simp only [unvisited, List.filter_filter, List.contains_cons, Bool.not_or]
    rfl
  rw [hsplit, List.length_filter_lt_length_iff_exists]
  exact ⟨name, by simp [unvisited, hm, hn], by simp⟩

/-- Inputs for the fields of a class. `visited` are the classes above, which are not expanded again. -/
def inputsBelow (m : ClassModel) (visited : List String) (name : String) : List ContractInput :=
  if _hv : name ∈ visited then []
  else (m.namedFields name).attach.map fun ⟨f, _hf⟩ =>
    if m.isClass f.type then
      .input (Text.trim f.name) "COMPLEX" none (inputsBelow m (name :: visited) (f.type.getD ""))
    else .input (Text.trim f.name) (m.contractType f.type) none []
termination_by (m.unvisited visited).length
decreasing_by exact unvisited_cons_lt (mem_keys_of_mem_namedFields _hf) _hv

/-- Inputs for the fields of a class. No branch has a class twice. -/
def contractInputs (m : ClassModel) (name : String) : List ContractInput := m.inputsBelow [] name

/-! ### Operations -/

/-- A path that can be read when a part of it is missing. -/
def safePath (path : String) : String := String.ofList (Text.replaceAll ['.'] ['?', '.'] path.toList)

/-- Reads a value with the conversion that its type needs. -/
def readContent (m : ClassModel) (path : String) (type : Option String) : String :=
  let safe := safePath path
  match m.plainType? type with
  | some "long" => safe ++ "?.trim() ? " ++ path ++ ".toLong() : null"
  | some "float" => safe ++ "?.toFloat()"
  | _ => safe

def copyLine (m : ClassModel) (holder path : String) (f : ClassField) : String :=
  let name := Text.trim f.name
  let path := path ++ "." ++ name
  let value := if m.isClass f.type then safePath path else m.readContent path f.type
  holder ++ "." ++ name ++ " = " ++ value ++ "\n"

/-- Script for a nested object: uses the one that is there or makes one, and copies its fields. -/
def compositionScript (m : ClassModel) (inputName object : String) (f : ClassField) : String :=
  let name := Text.trim f.name
  let type := f.type.getD ""
  let holder := Text.uncapitalize type ++ "Var"
  "if (!" ++ inputName ++ "?." ++ name ++ ") \x7b\n\treturn null\n\x7d\ndef " ++ holder ++ " = "
    ++ object ++ "." ++ name ++ " ?: new " ++ Defaults.modelClass type ++ "()\n"
    ++ String.join ((m.namedFields type).map (m.copyLine holder (inputName ++ "." ++ name)))
    ++ "return " ++ holder

def fieldOperation (m : ClassModel) (object className : String) (f : ClassField) :
    FieldOperation :=
  let inputName := object ++ "Input"
  let name := Text.trim f.name
  let isComposed := m.isClass f.type
  { variableName := object, className := className, fieldName := name, inputName := inputName
    content :=
      if isComposed then m.compositionScript inputName object f
      else m.readContent (inputName ++ "." ++ name) f.type
    returnType :=
      if isComposed then some (Defaults.modelClass (f.type.getD "")) else m.returnType? f.type
    inputType := m.operatorInputType f.type
    composedType := if isComposed then f.type else none }

/-- Contract of a task that writes an object of a class. -/
def contract? (m : ClassModel) (object className : String) : Option Contract :=
  if object.isEmpty || !m.isClass (some className) then none
  else some {
    root := .input (object ++ "Input") "COMPLEX" (some object) (m.contractInputs className)
    operations := (m.namedFields className).map (m.fieldOperation object className) }

end ClassModel

end ProcessForge
