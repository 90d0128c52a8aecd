import ProcessForge.Xml.Scope

/-! Visits to all elements of a tree. A visitor may change the tag of an element before its content is
    visited, and the content afterwards. It knows the elements around the place. -/

namespace ProcessForge.Xml

variable {m : Type → Type} [Monad m]

mutual

/-- Visits a node. `enter` sees an element as it was, `leave` its content as it became. -/
def Node.visit (enter : Scope → Element → m Tag) (leave : Scope → Tag → List Node → m (List Node))
    (outer : Scope) : Node → m Node
  | .element tag content => do
    let entered ← enter outer ⟨tag, content⟩
    let content ← visitContent enter leave (entered.layer :: outer) content
    let content ← leave outer entered content
    return .element entered content
  | .text s => return .text s
  | .comment s => return .comment s
  | .instruction target body => return .instruction target body

def visitContent (enter : Scope → Element → m Tag) (leave : Scope → Tag → List Node → m (List Node)) (outer : Scope) :
    List Node → m (List Node)
  | [] => return []
  | node :: rest => do
    let node ← node.visit enter leave outer
    let rest ← visitContent enter leave outer rest
    return node :: rest

end

def Element.visit (enter : Scope → Element → m Tag)
    (leave : Scope → Tag → List Node → m (List Node)) (e : Element) : m Element := do
  let entered ← enter [] e
  let content ← visitContent enter leave [entered.layer] e.content
  let content ← leave [] entered content
  return ⟨entered, content⟩

def Element.visitTags (enter : Scope → Element → m Tag) (e : Element) : m Element :=
  e.visit enter fun _ _ content => return content

end ProcessForge.Xml
