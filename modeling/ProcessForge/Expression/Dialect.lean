import ProcessForge.Expression.Marker
import ProcessForge.OrderedMap

/-! Expressions in the dialects of the two engines. Global variables are put in first. One dialect has
    no dotted paths, so dots become underscores; the other keeps them and has no wrapper. -/

namespace ProcessForge

/-- The dialects of the two engines. -/
inductive Dialect where
  | camunda
  | bonita
  deriving DecidableEq, Repr, Inhabited

def Dialect.ofName? : String → Option Dialect
  | "camunda" => some .camunda
  | "bonita" => some .bonita
  | _ => none

namespace Expression

def underscored (path : List Char) : List Char := Text.swapChar '.' '_' path

def globalLead : List Char := "globalVariables.".toList

/-- The value of a path that names a global variable. -/
def globalValue? (globals : OrderedMap String) (path : List Char) : Option String :=
  (Text.dropPrefix? globalLead (Text.trimChars path)).bind fun name =>
    globals.value? (String.ofList name)

/-- Puts the values of global variables in place of their marks. -/
def substituteGlobals (globals : OrderedMap String) (s : String) : String :=
  String.ofList (replaceMarked (fun body =>
    match globalValue? globals body with
    | some value => value.toList
    | none => '~' :: body ++ ['~']) s.toList)

/-- Puts the values of global variables in place of interpolations that are marked as a whole. -/
def substituteGlobalsInFile (globals : OrderedMap String) (s : String) : String :=
  String.ofList (replaceWholeMarks (fun path =>
    match globalValue? globals path with
    | some value => value.toList
    | none => interpolate ('~' :: path ++ ['~'])) s.toList)

/-- Drops the marks and makes the dots inside them underscores. -/
def flattenCamunda (s : String) : String :=
  if Text.isBlankText s then s
  else String.ofList (replaceMarked underscored s.toList)

/-- Drops the marks and the wrapper and keeps the dots. -/
def flattenBonita (s : String) : String :=
  if Text.isBlankText s then s
  else
    let unmarked := Text.trimChars (replaceMarked id s.toList)
    match unwrap? unmarked with
    | some inner => String.ofList (Text.trimChars inner)
    | none => String.ofList unmarked

def flatten : Dialect → String → String
  | .camunda => flattenCamunda
  | .bonita => flattenBonita

/-- A variable path, with or without wrapper and marks, as one name. -/
def camundaVariable (s : String) : String :=
  let cs := Text.trimChars s.toList
  let cs := match unwrap? cs with
    | some inner => Text.trimChars inner
    | none => cs
  String.ofList (underscored (Text.trimBy (· == '~') (replaceMarked id cs)))

/-- Interpolations of a descriptor that are marked as a whole, with underscores for dots. -/
def camundaDescriptorText (s : String) : String :=
  String.ofList (replaceWholeMarks (fun path => interpolate (underscored path)) s.toList)

/-- An interpolation that is the whole text becomes its path; others lose their marks. -/
def bonitaDescriptorText (s : String) : String :=
  match (wholeBraced? s.toList).bind wholeMark? with
  | some path => String.ofList (Text.trimChars path)
  | none => String.ofList (replaceWholeMarks interpolate s.toList)

def descriptorText : Dialect → String → String
  | .camunda => camundaDescriptorText
  | .bonita => bonitaDescriptorText

/-- Interpolations of an e-mail without their marks. -/
def emailText (s : String) : String := String.ofList (replaceWholeMarks interpolate s.toList)

/-- Interpolations of a decision document replaced by paths with underscores for dots. -/
def camundaDecisionText (s : String) : String :=
  String.ofList (replaceInterpolations underscored (replaceWholeMarks underscored s.toList))

/-- Interpolations of a decision document replaced by their paths. -/
def bonitaDecisionText (s : String) : String := String.ofList (replaceInterpolations id (replaceWholeMarks id s.toList))

/-- The path of a result variable, without wrapper and marks; nothing if none is left. -/
def resultVariable? (s : String) : Option String :=
  if Text.isBlankText s then none
  else
    let cs := Text.trimChars s.toList
    let cs := match unwrap? cs with
      | some inner => Text.trimChars inner
      | none => cs
    match firstMarked? cs with
    | some path => some (String.ofList (Text.trimChars path))
    | none =>
      let path := Text.trimChars (Text.trimBy (· == '~') cs)
      if path.isEmpty then none else some (String.ofList path)

end Expression

end ProcessForge
