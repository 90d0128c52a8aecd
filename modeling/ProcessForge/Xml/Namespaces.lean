import ProcessForge.Xml.Scope

/-! Declarations of namespaces put in order. Declarations are added to the root. Below it, a declaration
    of a URI that is already in scope goes away and the names that used it take the short form of the
    outer one. At last the declarations that no name uses are dropped, unless their short form is to be
    kept, since values may use it. -/

namespace ProcessForge.Xml

/-! ### Redundant declarations -/

/-- Progress of the pass: declarations of the outermost element of the pass and made-up short forms. -/
structure Rebinding where
  declared : List Namespace
  coined : Nat

/-- What the short forms of the old tree stand for in the new one, nearest first. -/
abbrev Renaming := List (Option String × Namespace)

def Renaming.of (renames : Renaming) (space : Namespace) : Namespace := (renames.lookup space.short).getD space

/-- Keeps the declarations of URIs that are new in scope, and says what every one of them becomes. -/
def keepNew (outer : Scope) : List Namespace → List Namespace × Renaming
  | [] => ([], [])
  | space :: rest =>
    let (kept, renames) := keepNew outer rest
    match outer.byUri? space.uri false with
    | some known => (kept, (space.short, known) :: renames)
    | none => (space :: kept, (space.short, space) :: renames)

/-- The new name of an attribute. One that would lose its short form asks the outermost element of the
    pass, which has the surroundings `around`. -/
def rebindAttribute (around : Scope) (top : Option Namespace) (renames : Renaming)
    (state : Rebinding) (a : Attribute) : Attribute × Rebinding :=
  match a.name.space with
  | none => (a, state)
  | some space =>
    let target := renames.of space
    if target.short.isSome || space.short.isNone then
      ({ a with name := ⟨some target, a.name.stem⟩ }, state)
    else
      let (space, added, coined) :=
        Scope.claim (⟨state.declared, top⟩ :: around) space.uri space.short true state.coined
      ({ a with name := ⟨some space, a.name.stem⟩ }, ⟨state.declared ++ added, coined⟩)

/-- The new names of attributes, from left to right. -/
def rebindAttributes (around : Scope) (top : Option Namespace) (renames : Renaming) :
    Rebinding → List Attribute → List Attribute × Rebinding
  | state, [] => ([], state)
  | state, a :: rest =>
    let (a, state) := rebindAttribute around top renames state a
    let (rest, state) := rebindAttributes around top renames state rest
    (a :: rest, state)

mutual

/-- The pass below its outermost element. `inner` are the elements between, nearest first. -/
def rebindNode (around : Scope) (top : Option Namespace) (inner : Scope) (renames : Renaming)
    (state : Rebinding) : Node → Node × Rebinding
  | .element tag content =>
    let outer := inner ++ ⟨state.declared, top⟩ :: around
    let (kept, renamed) := keepNew outer tag.declared
    let renames := renamed ++ renames
    let space := tag.name.space.map renames.of
    let (attributes, state) := rebindAttributes around top renames state tag.attributes
    let (content, state) := rebindContent around top (⟨kept, space⟩ :: inner) renames state content
    (.element ⟨⟨space, tag.name.stem⟩, kept, attributes⟩ content, state)
  | node => (node, state)

def rebindContent (around : Scope) (top : Option Namespace) (inner : Scope) (renames : Renaming)
    (state : Rebinding) : List Node → List Node × Rebinding
  | [] => ([], state)
  | node :: rest =>
    let (node, state) := rebindNode around top inner renames state node
    let (rest, state) := rebindContent around top inner renames state rest
    (node :: rest, state)

end

/-- Fits an element into its surroundings: no declaration repeats what is in scope there. -/
def Element.rebind (around : Scope) (coined : Nat) (e : Element) : Element × Nat :=
  let (kept, renames) := keepNew around e.tag.declared
  let space := e.tag.name.space.map (Renaming.of renames)
  let (attributes, state) := rebindAttributes around space renames ⟨kept, coined⟩ e.tag.attributes
  let (content, state) := rebindContent around space [] renames state e.content
  (⟨⟨⟨space, e.tag.name.stem⟩, state.declared, attributes⟩, content⟩, state.coined)

/-! ### Unused declarations -/

def Tag.uses (tag : Tag) : List (Option String) :=
  (tag.name.space.toList ++ tag.attributes.filterMap fun a => a.name.space).map Namespace.short

mutual

/-- Drops unused declarations, and tells which short forms are used from outside. -/
def pruneNode (keep : List String) : Node → Node × List (Option String)
  | .element tag content =>
    let (content, below) := pruneContent keep content
    let used := tag.uses ++ below
    let declared := tag.declared.filter fun space =>
      used.contains space.short || space.short.any keep.contains
    let free := used.filter fun short => !(tag.declared.any fun space => space.short == short)
    (.element { tag with declared := declared } content, free)
  | node => (node, [])

def pruneContent (keep : List String) : List Node → List Node × List (Option String)
  | [] => ([], [])
  | node :: rest =>
    let (node, first) := pruneNode keep node
    let (rest, others) := pruneContent keep rest
    (node :: rest, first ++ others)

end

/-- Drops unused declarations of an element and of everything below it. -/
def Element.prune (keep : List String) (e : Element) : Element :=
  match (pruneNode keep e.node).1.element? with
  | some pruned => pruned
  | none => e

/-! ### The whole document -/

/-- Adds a declaration unless the short form is taken. -/
def declare (declared : List Namespace) (space : Namespace) : List Namespace :=
  if space.short == some "xml" || declared.any fun known => known.short == space.short then declared
  else declared ++ [space]

/-- Declares namespaces on the root and puts all declarations in order. Short forms of the root and of
    the given namespaces are kept. -/
def Document.ensureNamespaces (d : Document) (spaces : List Namespace) : Document :=
  let keep := (d.root.tag.declared ++ spaces).filterMap Namespace.short
  let tag := { d.root.tag with declared := spaces.foldl declare d.root.tag.declared }
  let (root, coined) := Element.rebind [] d.coined { d.root with tag := tag }
  { d with root := root.prune keep, coined := coined }

/-! ### Copies that move to another place -/

/-- Adds a namespace unless its short form is there. -/
def addSpace (spaces : List Namespace) (space : Namespace) : List Namespace :=
  if spaces.any fun known => known.short == space.short then spaces else spaces ++ [space]

mutual

/-- Namespaces that a node uses and does not declare, behind those already found. -/
def Node.freeSpaces (bound : List (Option String)) (found : List Namespace) : Node → List Namespace
  | .element tag content =>
    let bound := tag.declared.map Namespace.short ++ bound
    let used := tag.name.space.toList ++ tag.attributes.filterMap fun a => a.name.space
    let free := used.filter fun space =>
      space.short != some "xml" && !bound.contains space.short
    freeSpacesOf bound (free.foldl addSpace found) content
  | _ => found

/-- Namespaces that a content uses and does not declare. -/
def freeSpacesOf (bound : List (Option String)) (found : List Namespace) : List Node → List Namespace
  | [] => found
  | node :: rest => freeSpacesOf bound (node.freeSpaces bound found) rest

end

def Element.selfContained (e : Element) : Element :=
  { e with tag := { e.tag with declared := e.tag.declared ++ e.node.freeSpaces [] [] } }

end ProcessForge.Xml
