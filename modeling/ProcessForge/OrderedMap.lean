/-! Maps from texts that remember the order in which their keys came. Writing to a key that is
    present keeps its place, a new key goes to the end. -/

namespace ProcessForge

/-- A map from texts to values as the list of its entries, oldest key first. -/
abbrev OrderedMap (α : Type) := List (String × α)

namespace OrderedMap

variable {α β : Type}

def value? (m : OrderedMap α) (key : String) : Option α :=
  match m with
  | [] => none
  | (k, v) :: rest => if k == key then some v else value? rest key

def has (m : OrderedMap α) (key : String) : Bool := m.any fun entry => entry.1 == key

/-- Writes a value; a present key keeps its place. -/
def put (m : OrderedMap α) (key : String) (value : α) : OrderedMap α :=
  match m with
  | [] => [(key, value)]
  | (k, v) :: rest => if k == key then (k, value) :: rest else (k, v) :: put rest key value

def putNew (m : OrderedMap α) (key : String) (value : α) : OrderedMap α :=
  if m.has key then m else m ++ [(key, value)]

/-- Writes all entries of a list, in order. -/
def putAll (m : OrderedMap α) (entries : List (String × α)) : OrderedMap α :=
  entries.foldl (fun m entry => m.put entry.1 entry.2) m

/-- The map of a list of entries; a repeated key keeps its first place and its last value. -/
def ofList (entries : List (String × α)) : OrderedMap α := putAll [] entries

/-- Keys, oldest first. -/
def keys (m : OrderedMap α) : List String := m.map Prod.fst

def values (m : OrderedMap α) : List α := m.map Prod.snd

def mapValues (f : α → β) (m : OrderedMap α) : OrderedMap β := m.map fun entry => (entry.1, f entry.2)

end OrderedMap

end ProcessForge
