import ProcessForge.Xml.Reader

/-! Namespaces in scope. A scope is the list of the elements around a place, nearest first, each with
    the namespaces that it declares and the one that its own name uses. A new name in a namespace takes
    the short form of a declaration in scope; without one a short form is made up and declared on the
    element itself. -/

namespace ProcessForge.Xml

/-- What an element contributes to the scope of its content. -/
structure Layer where
  declared : List Namespace
  space : Option Namespace
  deriving DecidableEq, Repr, Inhabited

/-- Elements around a place, nearest first. -/
abbrev Scope := List Layer

def Tag.layer (tag : Tag) : Layer := ⟨tag.declared, tag.name.space⟩

namespace Scope

def bound? (scope : Scope) (short : Option String) : Option Namespace :=
  if short == some "xml" then some ⟨short, xmlUri⟩
  else scope.findSome? fun layer => layer.declared.find? fun space => space.short == short

/-- Declarations and uses of a URI, in the order in which they are looked at: those of the nearest
    element first, and the namespace of an element's own name behind its declarations. The own name of
    the innermost element does not count. -/
def candidates (scope : Scope) (uri : String) : List Namespace :=
  match scope with
  | [] => []
  | inner :: outer =>
    (inner.declared ++ outer.flatMap fun layer => layer.declared ++ layer.space.toList).filter
      fun space => space.uri == uri

/-- The namespace in scope that a new name with the URI takes. An attribute cannot use a default
    namespace. -/
def byUri? (scope : Scope) (uri : String) (forAttribute : Bool) : Option Namespace :=
  if uri == xmlUri then some ⟨some "xml", xmlUri⟩
  else (scope.candidates uri).find? fun space =>
    !(forAttribute && space.short.isNone) && scope.bound? space.short == some space

end Scope

def familiarShort? (uri : String) : Option String :=
  if uri == "http://www.w3.org/2001/XMLSchema-instance" then some "xsi" else none

/-- The next made-up short form that is not in use, and the count behind it. -/
def coinShort (scope : Scope) : Nat → Nat → String × Nat
  | 0, coined => ("ns" ++ toString coined, coined + 1)
  | fuel + 1, coined =>
    let short := "ns" ++ toString coined
    if (scope.bound? (some short)).isSome then coinShort scope fuel (coined + 1)
    else (short, coined + 1)

def Scope.size (scope : Scope) : Nat := (scope.flatMap Layer.declared).length

/-- The namespace for a new name on the innermost element, the declaration that it needs, and the
    count of made-up short forms. A hint is used if its short form is free. -/
def Scope.claim (scope : Scope) (uri : String) (hint : Option String) (forAttribute : Bool)
    (coined : Nat) : Namespace × List Namespace × Nat :=
  match scope.byUri? uri forAttribute with
  | some space => (space, [], coined)
  | none =>
    match hint.or (familiarShort? uri) with
    | some short =>
      if (scope.bound? (some short)).isSome then
        let (short, coined) := coinShort scope (scope.size + 1) coined
        (⟨some short, uri⟩, [⟨some short, uri⟩], coined)
      else (⟨some short, uri⟩, [⟨some short, uri⟩], coined)
    | none =>
      let (short, coined) := coinShort scope (scope.size + 1) coined
      (⟨some short, uri⟩, [⟨some short, uri⟩], coined)

/-! ### Writing attributes -/

/-- Writes an attribute; one with the same label keeps its place. -/
def putAttribute (name : Name) (value : String) : List Attribute → List Attribute
  | [] => [⟨name, value⟩]
  | a :: rest =>
    if a.name.label == name.label then ⟨name, value⟩ :: rest else a :: putAttribute name value rest

def Tag.set (tag : Tag) (stem value : String) : Tag :=
  { tag with attributes := putAttribute (.plain stem) value tag.attributes }

def Tag.drop (tag : Tag) (stem : String) : Tag :=
  { tag with attributes := tag.attributes.filter fun a => a.name.label != .plain stem }

/-- Writes an attribute on an element with the given surroundings. -/
def Tag.setIn (tag : Tag) (outer : Scope) (coined : Nat) (label : Label) (value : String) : Tag × Nat :=
  match label.uri with
  | none => (tag.set label.stem value, coined)
  | some uri =>
    let (space, added, coined) := Scope.claim (tag.layer :: outer) uri none true coined
    ({ tag with
        declared := tag.declared ++ added
        attributes := putAttribute ⟨some space, label.stem⟩ value tag.attributes }, coined)

end ProcessForge.Xml
