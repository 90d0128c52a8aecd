import ProcessForge.Text.Blank
import ProcessForge.Text.Search

/-! Labels of data objects. A label names a variable, behind a colon its type, and in square brackets,
    on the same line or the next one, a state. -/

namespace ProcessForge.DataObject

/-- The type behind the colon: up to a line feed, else up to a bracket. -/
def typeOf (after : List Char) : List Char :=
  let after := Text.trimChars after
  match Text.splitFirst? '\n' after with
  | some (line, _) => Text.trimChars line
  | none =>
    match Text.splitFirst? '[' after with
    | some (front, _) => Text.trimChars front
    | none => after

/-- The state between the first bracket of each kind. -/
def stateOf? (label : List Char) : Option (List Char) :=
  if label.contains '[' && label.contains ']' then
    let start := (label.takeWhile (· != '[')).length + 1
    let stop := (label.takeWhile (· != ']')).length
    let state := Text.trimChars ((label.take stop).drop start)
    if state.isEmpty then none else some state
  else none

/-- Variable, type and state of a label. -/
def readLabel (label : String) : Option String × Option String × Option String :=
  if Text.isBlankText label then (none, none, none)
  else
    let cs := label.toList
    let state := (stateOf? cs).map String.ofList
    match Text.splitFirst? ':' cs with
    | some (head, after) =>
      (some (String.ofList (Text.trimChars head)), some (String.ofList (typeOf after)), state)
    | none => (none, none, state)

end ProcessForge.DataObject
