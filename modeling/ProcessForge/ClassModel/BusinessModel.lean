import ProcessForge.ClassModel.Model
import ProcessForge.Defaults
import ProcessForge.Text.Case
import ProcessForge.Xml.Build

/-! The business data model of a class model as a document. A field typed with a class is a relation; it
    is a collection if the first composition between the two classes has many parts. -/

namespace ProcessForge.ClassModel

open Xml

def businessModelFile : String := "bom.xml"

def businessSpace : Namespace := ⟨none, "http://documentation.bonitasoft.com/bdm-xml-schema/1.0"⟩

def businessElement (stem : String) (attributes : List (String × String)) (content : List Node) :
    Node :=
  .element (tagOf ⟨some businessSpace, stem⟩ attributes) content

/-- Type of a stored field; enumerations and types that are not known are stored as texts. -/
def storedType (m : ClassModel) (type : Option String) : String :=
  if m.isEnum type then "STRING"
  else match Text.lower (type.getD "") with
    | "boolean" | "bool" => "BOOLEAN"
    | "localdate" => "LOCALDATE"
    | "localdatetime" => "LOCALDATETIME"
    | "offsetdatetime" => "OFFSETDATETIME"
    | "double" => "DOUBLE"
    | "float" => "FLOAT"
    | "integer" | "int" => "INTEGER"
    | "long" => "LONG"
    | "text" => "TEXT"
    | _ => "STRING"

def manyMultiplicities : List String := ["*", "many", "0..*", "1..*", "0..n", "1..n"]

def isCollection (m : ClassModel) (owner part : String) : Bool :=
  match m.compositions.find? fun c => c.owner == owner && c.part == part with
  | some c => manyMultiplicities.contains (Text.lower (Text.trim (c.partMultiplicity.getD "")))
  | none => false

def businessField (m : ClassModel) (owner : String) (f : ClassField) : Node :=
  if m.isClass f.type then
    let part := f.type.getD ""
    businessElement "relationField" [
      ("type", "COMPOSITION"), ("reference", Defaults.modelClass part), ("fetchType", "LAZY"),
      ("name", f.name), ("nullable", "true"),
      ("collection", if m.isCollection owner part then "true" else "false")] []
  else
    businessElement "field" [("type", m.storedType f.type), ("length", "255"), ("name", f.name), ("nullable", "true"),
      ("collection", "false")] []

def businessObject (m : ClassModel) (c : ClassDef) : Node :=
  businessElement "businessObject" [("qualifiedName", Defaults.modelClass c.name)] [
    businessElement "fields" [] (c.fields.map (m.businessField c.name)),
    businessElement "uniqueConstraints" [] [],
    businessElement "queries" [] [],
    businessElement "indexes" [] []]

def businessModel (m : ClassModel) : Except Failure String :=
  let tag := tagOf ⟨some businessSpace, "businessObjectModel"⟩ [("modelVersion", "1.0")]
  let objects := businessElement "businessObjects" [] (m.classes.values.map m.businessObject)
  Element.write ⟨{ tag with declared := [businessSpace] }, [objects]⟩ (some true)

end ProcessForge.ClassModel
