import ProcessForge.Xml.Draft

/-! Made-up ids. New ids of a diagram are numbered above those that it already has. In a written text they
    are numbered anew, in the order of their first appearance, so that a text does not depend on the order
    in which its parts were made. -/

namespace ProcessForge.Bonita

open Xml

/-- The number of a made-up id with which the characters begin, and what follows it. -/
def readId? (cs : List Char) : Option (Nat × List Char) := do
  let rest ← Text.dropPrefix? idMark.toList cs
  let digits := rest.take 17
  if digits.length == 17 && digits.all Char.isDigit then
    return (digits.foldl (fun n c => 10 * n + (c.toNat - '0'.toNat)) 0, rest.drop 17)
  else none

/-- Numbers of the made-up ids in a text, in order. -/
def idsIn : List Char → List Nat
  | [] => []
  | c :: rest =>
    match readId? (c :: rest) with
    | some (n, _) => n :: idsIn rest
    | none => idsIn rest

def firstNewId (d : Document) : Nat :=
  let values := d.root.elements.flatMap fun e => e.tag.attributes.map Attribute.value
  (values.flatMap fun v => idsIn v.toList).foldl (fun bound n => max bound (n + 1)) 1

/-- The new ids of a text, each once, in the order of their first appearance. -/
def newIds (first : Nat) (text : String) : List Nat := (idsIn text.toList).foldl
    (fun found n => if n < first || found.contains n then found else found ++ [n]) []

/-- Replaces new ids by their positions among `ids`. Characters of one that was just replaced are passed
    over. -/
def renumberFrom (ids : List Nat) : Nat → List Char → List Char
  | _, [] => []
  | skip + 1, _ :: rest => renumberFrom ids skip rest
  | 0, c :: rest =>
    match readId? (c :: rest) with
    | some (n, _) =>
      if ids.contains n then
        (madeUpId (ids.idxOf n + 1)).toList ++ renumberFrom ids (idMark.length + 16) rest
      else c :: renumberFrom ids 0 rest
    | none => c :: renumberFrom ids 0 rest

/-- A text with its new ids numbered by position among `ids`. -/
def renumberBy (ids : List Nat) (text : String) : String := String.ofList (renumberFrom ids 0 text.toList)

/-- A text with its new ids numbered in the order of their first appearance. -/
def renumber (first : Nat) (text : String) : String := renumberBy (newIds first text) text

end ProcessForge.Bonita
