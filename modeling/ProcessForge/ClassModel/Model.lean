import ProcessForge.OrderedMap

/-! The class model of business objects: classes with fields, enumerations, and compositions between
    classes. -/

namespace ProcessForge

/-- A field of a class, with its type if it has one. -/
structure ClassField where
  name : String
  type : Option String := none
  deriving DecidableEq, Repr, Inhabited

structure ClassDef where
  name : String
  fields : List ClassField := []
  deriving DecidableEq, Repr, Inhabited

/-- A part that belongs to an owner, and how many of each there are. -/
structure Composition where
  owner : String
  part : String
  ownerMultiplicity : Option String := none
  partMultiplicity : Option String := none
  deriving DecidableEq, Repr, Inhabited

structure ClassModel where
  classes : OrderedMap ClassDef := []
  enums : OrderedMap (List String) := []
  compositions : List Composition := []
  deriving DecidableEq, Repr, Inhabited

namespace ClassModel

def isClass (m : ClassModel) (type : Option String) : Bool := type.any fun name => name != "" && m.classes.has name

def isEnum (m : ClassModel) (type : Option String) : Bool := type.any fun name => name != "" && m.enums.has name

/-- Fields of a class, none if the model does not have it. -/
def fieldsOf (m : ClassModel) (name : String) : List ClassField := ((m.classes.value? name).map ClassDef.fields).getD []

end ClassModel

end ProcessForge
