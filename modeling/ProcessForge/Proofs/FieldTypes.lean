import ProcessForge.ClassModel.BusinessModel
import ProcessForge.ClassModel.Contract

/-! The class that the setter of a field takes against the class that the business data model gives to the
    field. The first one comes from the contract, the second one is read off the document: a collection is a
    list, a relation has the class it refers to, and a stored type has a class of its own. Main statement: the
    two are the same, except for collections, whose setters take a single part, and for the types `date` and
    `datetime`, which the contract knows and the document stores as texts. -/

namespace ProcessForge.ClassModel

open Xml Text

variable {m : ClassModel} {type : Option String}

def storedClassOf? : String → Option String
  | "STRING" | "TEXT" => some "java.lang.String"
  | "BOOLEAN" => some "java.lang.Boolean"
  | "LOCALDATE" => some "java.time.LocalDate"
  | "LOCALDATETIME" => some "java.time.LocalDateTime"
  | "OFFSETDATETIME" => some "java.time.OffsetDateTime"
  | "DOUBLE" => some "java.lang.Double"
  | "FLOAT" => some "java.lang.Float"
  | "INTEGER" => some "java.lang.Integer"
  | "LONG" => some "java.lang.Long"
  | _ => none

/-- Class of the property that an element of the document describes. -/
def propertyClass? : Node → Option String
  | .element tag _ =>
    if tag.get? "collection" = some "true" then some "java.util.List"
    else match tag.name.stem with
      | "relationField" => tag.get? "reference"
      | "field" => (tag.get? "type").bind storedClassOf?
      | _ => none
  | _ => none

def fieldElements : Node → List Node
  | .element _ content => content.flatMap fun
    | .element tag inner => if tag.name.stem = "fields" then inner else []
    | _ => []
  | _ => []

/-- Types that the contract knows and the document does not. -/
def undocumentedTypes : List String := ["date", "datetime"]

/-- Whether contract and document give one class to a field. -/
def hasOneClass (m : ClassModel) (owner : String) (f : ClassField) : Bool :=
  if m.isClass f.type then !m.isCollection owner (f.type.getD "")
  else !(m.plainType? f.type).any undocumentedTypes.contains

/-! ### One table against the other -/

/-- A stored type has the class that the contract knows for the type, unless the document does not know it. -/
theorem storedClassOf?_storedType (he : m.isEnum type = false) : storedClassOf? (m.storedType type) =
      some (if lower (type.getD "") ∈ undocumentedTypes then "java.lang.String"
        else (valueClassOf? (lower (type.getD ""))).getD "java.lang.String") := by
  rw [storedType, he, if_neg Bool.false_ne_true]
  generalize lower (type.getD "") = plain
  split
  case h_12 =>
    -- Not a type of the document: either it is one of the two, or the contract does not know it either.
    by_cases hda : plain = "date"
    · subst hda; decide
    by_cases hd : plain = "datetime"
    · subst hd; decide
    have hu : valueClassOf? plain = none := by simp_all [valueClassOf?]
    simp [hu, storedClassOf?, undocumentedTypes, hda, hd]
  all_goals decide

theorem lower_empty : lower "" = "" := by decide +kernel

theorem plainType?_eq (he : m.isEnum type = false) : m.plainType? type = none ∧ lower (type.getD "") = "" ∨
      m.plainType? type = some (lower (type.getD "")) := by
  rw [plainType?.eq_def, he, if_neg Bool.false_ne_true]
  split
  · exact Or.inl ⟨rfl, lower_empty⟩
  · exact Or.inr rfl
  · exact Or.inl ⟨rfl, lower_empty⟩

theorem valueClassOf?_ne_string (plain : String) : valueClassOf? plain ≠ some "java.lang.String" := by
  unfold valueClassOf?
  split <;> decide

/-- Outside of classes the two sides agree just on the types that both of them know or neither does. -/
theorem storedClass_eq_returnType_iff (m : ClassModel) (type : Option String) :
    storedClassOf? (m.storedType type) = some ((m.returnType? type).getD "java.lang.String") ↔
      (m.plainType? type).any undocumentedTypes.contains = false := by
  cases he : m.isEnum type with
  | true => simp [storedType, returnType?, plainType?, he, storedClassOf?]
  | false =>
    rw [storedClassOf?_storedType he, returnType?]
    rcases plainType?_eq he with ⟨hp, hem⟩ | hp
    · rw [hp, hem]
      decide
    · rw [hp]
      by_cases hm : lower (type.getD "") ∈ undocumentedTypes
      · have hk : (valueClassOf? (lower (type.getD ""))).isSome :=
          (by decide : ∀ plain ∈ undocumentedTypes, (valueClassOf? plain).isSome) _ hm
        obtain ⟨known, hc⟩ := Option.isSome_iff_exists.mp hk
        have hn : known ≠ "java.lang.String" := fun h => valueClassOf?_ne_string _ (h ▸ hc)
        simp [hm, hc, hn.symm]
      · simp [hm]

/-! ### Fields of the document -/

theorem get?_tagOf (name : Name) (ats : List (String × String)) (s : String) :
    (tagOf name ats).get? s = (ats.find? fun a => a.1 == s).map Prod.snd := by
  induction ats with
  | nil => rfl
  | cons a tl ih =>
    by_cases ha : a.1 = s
    · simp [tagOf, Tag.get?, Tag.value?, Name.plain, Name.label, Name.uri?, Label.plain, ha]
    · simpa [tagOf, Tag.get?, Tag.value?, Name.plain, Name.label, Label.plain, ha] using ih

theorem propertyClass?_businessField (m : ClassModel) (o : String) (f : ClassField) :
    propertyClass? (m.businessField o f) = if m.isClass f.type then
        if m.isCollection o (f.type.getD "") then some "java.util.List"
        else some (Defaults.modelClass (f.type.getD "")) else storedClassOf? (m.storedType f.type) := by
  rw [businessField]
  split
  · cases hm : m.isCollection o (f.type.getD "") with
    | true => simp [propertyClass?, businessElement, get?_tagOf, hm]
    | false =>
      simp [propertyClass?, businessElement, get?_tagOf, hm]
      rfl
  · rfl

theorem modelClass_ne_list (name : String) : Defaults.modelClass name ≠ "java.util.List" := by
  intro h
  have hh := congrArg (fun s : String => s.toList.head?) h
  simp [Defaults.modelClass, Defaults.modelPackage] at hh

theorem propertyClass_eq_inputType_iff (m : ClassModel) (object key o : String) (f : ClassField) :
    propertyClass? (m.businessField o f) = some (m.fieldOperation object key f).inputType ↔ m.hasOneClass o f := by
  have hin : (m.fieldOperation object key f).inputType = m.operatorInputType f.type := rfl
  rw [hin, propertyClass?_businessField, operatorInputType, hasOneClass]
  cases hc : m.isClass f.type with
  | true =>
    cases hm : m.isCollection o (f.type.getD "") with
    | true => simpa using (modelClass_ne_list _).symm
    | false => simp
  | false => simpa using storedClass_eq_returnType_iff m f.type

/-! ### Main statement -/

theorem businessField_mem_fieldElements {c : ClassDef} {f : ClassField} (hf : f ∈ c.fields) :
    m.businessField c.name f ∈ fieldElements (m.businessObject c) := by
  have hfi : fieldElements (m.businessObject c) = c.fields.map (m.businessField c.name) := by
    simp [businessObject, businessElement, fieldElements, tagOf]
  rw [hfi]
  exact List.mem_map_of_mem hf

theorem fieldOperation_mem_operations {key : String} {c : ClassDef} {f : ClassField}
    (hc : m.classes.value? key = some c) (hf : f ∈ c.fields) (hn : isBlankText f.name = false) {object : String}
    {ct : Contract} (h : m.contract? object key = some ct) : m.fieldOperation object key f ∈ ct.operations := by
  rw [contract?] at h
  split at h
  · cases h
  · next hcl =>
    obtain rfl := Option.some.inj h
    have hk : key.isEmpty = false := by
      cases he : key.isEmpty with
      | false => rfl
      | true => simp [isClass, String.isEmpty_iff.mp he] at hcl
    refine List.mem_map_of_mem ?_
    simp [namedFields, hk, fieldsOf, hc, hf, hn]

/-- For a field with a name, the setter in the contract of its class takes the class that the document gives to
    the field, just if the field is no collection and its type is not one that only the contract knows. -/
theorem setter_takes_property_class {m : ClassModel} {key : String} {c : ClassDef} {f : ClassField}
    (hc : m.classes.value? key = some c) (hf : f ∈ c.fields) (hname : isBlankText f.name = false) :
    m.businessField c.name f ∈ fieldElements (m.businessObject c) ∧
      ∀ object contract, m.contract? object key = some contract → m.fieldOperation object key f ∈ contract.operations ∧
        (propertyClass? (m.businessField c.name f) = some (m.fieldOperation object key f).inputType ↔
          m.hasOneClass c.name f = true) :=
  ⟨businessField_mem_fieldElements hf, fun object _ hcontract =>
    ⟨fieldOperation_mem_operations hc hf hname hcontract, propertyClass_eq_inputType_iff m object key c.name f⟩⟩

/-- Orders with their lines, a state, and days in two spellings. -/
def orderClass : ClassDef where
  name := "Order"
  fields := [⟨"lines", some "Line"⟩, ⟨"customer", some "Customer"⟩, ⟨"state", some "State"⟩,
    ⟨"placed", some "Date"⟩, ⟨"due", some "LocalDate"⟩]

/-- An order has many lines and one customer. -/
def orderBook : ClassModel where
  classes := [("Order", orderClass), ("Line", { name := "Line", fields := [⟨"quantity", some "int"⟩] }),
    ("Customer", { name := "Customer" })]
  enums := [("State", ["OPEN", "CLOSED"])]
  compositions := [⟨"Order", "Line", none, some "0..*"⟩, ⟨"Order", "Customer", none, some "1"⟩]

theorem setter_takes_property_class_due : ∃ contract, orderBook.contract? "order" "Order" = some contract ∧
      (orderBook.fieldOperation "order" "Order" ⟨"due", some "LocalDate"⟩ ∈ contract.operations) ∧
      propertyClass? (orderBook.businessField "Order" ⟨"due", some "LocalDate"⟩) =
        some (orderBook.fieldOperation "order" "Order" ⟨"due", some "LocalDate"⟩).inputType := by
  obtain ⟨contract, hcontract⟩ := Option.isSome_iff_exists.mp
    (by decide : (orderBook.contract? "order" "Order").isSome = true)
  have hfield := setter_takes_property_class (rfl : orderBook.classes.value? "Order" = some orderClass)
    (by decide : (⟨"due", some "LocalDate"⟩ : ClassField) ∈ orderClass.fields) (by decide +kernel)
  obtain ⟨hmem, hiff⟩ := hfield.2 "order" contract hcontract
  exact ⟨contract, hcontract, hmem, hiff.mpr (by decide +kernel)⟩

/-- A collection is set with one part, and a date that is stored as a text is set with a date. -/
theorem collection_and_date_classes_differ :
    propertyClass? (orderBook.businessField "Order" ⟨"lines", some "Line"⟩) = some "java.util.List" ∧
      (orderBook.fieldOperation "order" "Order" ⟨"lines", some "Line"⟩).inputType = "com.company.model.Line" ∧
      propertyClass? (orderBook.businessField "Order" ⟨"placed", some "Date"⟩) = some "java.lang.String" ∧
      (orderBook.fieldOperation "order" "Order" ⟨"placed", some "Date"⟩).inputType = "java.time.LocalDate" := by
  refine ⟨?_, ?_, ?_, ?_⟩ <;> decide +kernel

end ProcessForge.ClassModel
