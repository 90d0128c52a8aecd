import ProcessForge.Xml.Edit

/-! Jobs: edits at places of a tree. All places of one round of jobs are those of the tree before the
    round, so that an edit of one element never moves the place of another. Every element gets the edits
    of its tag first, then its content is visited, then it gets its other edits. -/

namespace ProcessForge.Xml

/-- The way from the root to an element: positions in the contents. -/
abbrev Path := List Nat

/-- An element of a tree with the way to it and the elements around it. -/
structure Place where
  path : Path
  outer : Scope
  element : Element
  deriving Repr, Inhabited

mutual

/-- The places of a node and of everything below it. -/
def Node.places (path : Path) (outer : Scope) : Node → List Place
  | .element tag content =>
    ⟨path, outer, ⟨tag, content⟩⟩ :: placesFrom path (tag.layer :: outer) 0 content
  | _ => []

def placesFrom (path : Path) (outer : Scope) (position : Nat) : List Node → List Place
  | [] => []
  | node :: rest =>
    node.places (path ++ [position]) outer ++ placesFrom path outer (position + 1) rest

end

def Element.places (e : Element) : List Place := e.node.places [] []

/-- Edits at a place. -/
structure Job where
  path : Path
  edits : List Edit
  deriving Repr, Inhabited

def ownEdits (jobs : List Job) : List Edit := (jobs.filter fun job => job.path.isEmpty).flatMap Job.edits

def jobsAt (position : Nat) (jobs : List Job) : List Job :=
  jobs.filterMap fun job =>
    match job.path with
    | first :: rest => if first == position then some ⟨rest, job.edits⟩ else none
    | [] => none

mutual

def Node.perform (outer : Scope) (jobs : List Job) : Node → StateM Supply Node
  | .element tag content => do
    if jobs.isEmpty then return .element tag content
    let own := ownEdits jobs
    let (tag, _) ← applyEdits outer tag [] (own.filter Edit.isOfTag)
    let content ← performFrom (tag.layer :: outer) jobs 0 content
    let (tag, content) ← applyEdits outer tag content (own.filter fun edit => !edit.isOfTag)
    return .element tag content
  | node => return node

/-- Does the jobs in a content from a position on. -/
def performFrom (outer : Scope) (jobs : List Job) (position : Nat) : List Node → StateM Supply (List Node)
  | [] => return []
  | node :: rest => do
    let node ← node.perform outer (jobsAt position jobs)
    let rest ← performFrom outer jobs (position + 1) rest
    return node :: rest

end

/-- Does all jobs of a round. New ids are numbered from `nextId` on. -/
def Document.perform (d : Document) (nextId : Nat) (jobs : List Job) : Document × Nat :=
  let (node, supply) := Id.run (StateT.run (d.root.node.perform [] jobs) ⟨nextId, d.coined⟩)
  match node.element? with
  | some root => ({ d with root := root, coined := supply.coined }, supply.nextId)
  | none => (d, nextId)

end ProcessForge.Xml
