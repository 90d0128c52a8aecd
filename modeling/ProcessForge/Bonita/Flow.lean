import ProcessForge.Bonita.Expression
import ProcessForge.Process.Model
import ProcessForge.Text.Word

/-! Conditions of sequence flows and the business objects that they use. -/

namespace ProcessForge.Bonita

open Xml

/-- Conditions by the names of their flows; the first one of a name counts. -/
def flowConditions (m : Model) : OrderedMap String :=
  (m.processes.flatMap fun p => p.flows.values).foldl (fun found flow =>
    match flow.name, flow.resolved with
    | some name, some condition =>
      if name.isEmpty || Text.isBlankText condition then found
      else found.putNew (nameKey (some name)) condition
    | _, _ => found) []

/-- Whether one of two neighbours belongs to a word and the other does not; a missing one does not. -/
def isBoundary (left right : Option Char) : Bool := left.any Text.isWord != right.any Text.isWord

/-- Whether a piece occurs with word boundaries at both ends. `before` is the character in front. -/
def hasWordFrom (piece : List Char) (before : Option Char) : List Char → Bool
  | [] => false
  | c :: rest =>
    (match Text.dropPrefix? piece (c :: rest) with
      | some after => isBoundary before (some c) && isBoundary piece.getLast? after.head?
      | none => false) || hasWordFrom piece (some c) rest

/-- Whether a name occurs in an expression as a word. -/
def mentions (expression name : String) : Bool := hasWordFrom name.toList none expression.toList

def conditionEdits (objects : OrderedMap BusinessObject) (expression : String) : List Edit :=
  let used := objects.filter fun (name, _) => mentions expression name
  [.set (.plain "name") expression, .set (.plain "content") expression, .set (.plain "interpreter") "GROOVY",
    .set (.plain "type") "TYPE_READ_ONLY_SCRIPT",
    .set (.plain "returnType") "java.lang.Boolean",
    .set (.plain "returnTypeFixed") "true",
    .set (.plain "automaticDependencies") "false",
    .clear (.plain "referencedElements")]
    ++ used.map fun (name, object) =>
      .append (objectRef name (some object.dataType) (some object.className))

def planFlows (m : Model) (d : Document) : Planning Unit := do
  let conditions := flowConditions m
  let objects := businessObjects d
  (placesOf d "connections").forM fun place => do
    let tag := place.element.tag
    if kindOf tag == "process:SequenceFlow" then
      match conditions.value? (nameKey (tag.get? "name")) with
      | none => return
      | some expression => Planning.edit place [.ensure (piece "condition" "expression:Expression" [] []),
          .within (.plain "condition") (conditionEdits objects expression)]

end ProcessForge.Bonita
