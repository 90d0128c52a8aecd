import ProcessForge.Expression.Marker

/-! References from a configuration to other parts of a model: files, forms and members of the
    organization. A reference is an interpolation with the kind of the target in front. -/

namespace ProcessForge.Reference

/-- What a reference of a kind refers to. Blanks around the reference do not matter. -/
def target? (kind : String) (s : String) : Option (List Char) :=
  match Expression.bracedExactly? (Text.trimChars s.toList) with
  | some body =>
    match Text.dropPrefix? kind.toList body with
    | some [] => none
    | other => other
  | none => none

def filePath? (s : String) : Option String := (target? "file:" s).map fun path => String.ofList (Text.trimChars path)

/-- The path of a file reference; any other text is a path by itself. -/
def filePath (s : String) : String := (filePath? s).getD s

def baseName (path : String) : String := String.ofList (Text.afterLast '/' path.toList)

/-- The file name of a file reference; any other text is a name by itself. -/
def fileName (s : String) : String :=
  match filePath? s with
  | some path => baseName path
  | none => s

/-- Stem of a file name: the last point and what follows it go away, unless nothing but points
    precedes it. -/
def stemOf (name : List Char) : List Char :=
  let ending := Text.afterLast '.' name
  let stem := name.take (name.length - ending.length - 1)
  if ending.length < name.length && stem.any (· != '.') then stem else name

/-- A path without the extension of its file name. -/
def stripExtension (path : String) : String :=
  let name := Text.afterLast '/' path.toList
  String.ofList (path.toList.take (path.toList.length - name.length) ++ stemOf name)

/-- Key of the embedded form that a file reference names. -/
def formKey? (s : String) : Option String :=
  (filePath? s).bind fun path =>
    if path.isEmpty then none else some ("embedded:app:" ++ stripExtension path ++ ".html")

def decisionName (s : String) : String := stripExtension (baseName (filePath s))

end ProcessForge.Reference
