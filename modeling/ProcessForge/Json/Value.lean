import ProcessForge.Number.Binary64
import ProcessForge.OrderedMap

/-! JSON values. Whole numbers and numbers with a binary point are told apart, and the members of an
    object keep the order of their names. -/

namespace ProcessForge

/-- A JSON value. -/
inductive Json where
  | null
  | bool (b : Bool)
  | int (n : Int)
  | float (x : Binary64)
  | str (s : String)
  | arr (items : List Json)
  | obj (members : List (String × Json))
  deriving Repr, Inhabited

namespace Json

/-- The member of an object; nothing for other values. -/
def member? (v : Json) (name : String) : Option Json :=
  match v with
  | obj members => OrderedMap.value? members name
  | _ => none

def text? : Json → Option String
  | str s => some s
  | _ => none

def members? : Json → Option (OrderedMap Json)
  | obj members => some members
  | _ => none

/-- Whether the value counts as nothing: null, false, zero, or an empty text, array or object. -/
def isBlank : Json → Bool
  | null | bool false | arr [] | obj [] => true
  | int n => n == 0
  | float x => x.isZero
  | str s => s.isEmpty
  | _ => false

mutual

/-- Number of values in a value, plus the lengths of all its strings and names. -/
def weight : Json → Nat
  | null | bool _ | int _ | float _ => 1
  | str s => 1 + s.length
  | arr items => 1 + itemsWeight items
  | obj members => 1 + membersWeight members

def itemsWeight : List Json → Nat
  | [] => 0
  | item :: rest => weight item + itemsWeight rest

def membersWeight : List (String × Json) → Nat
  | [] => 0
  | (name, value) :: rest => name.length + weight value + membersWeight rest

end

end Json

end ProcessForge
