import ProcessForge.Reference
import ProcessForge.OrderedMap
import ProcessForge.Text.Case

/-! Which file describes a task: the one that it refers to, else one that is named like it. -/

namespace ProcessForge.Bonita

/-- Small letters and digits stay, rows of other characters become one underscore. `following` says that an
    underscore was just written. -/
def underscoreOthers (following : Bool) : List Char → List Char
  | [] => []
  | c :: rest =>
    if c.isLower || c.isDigit then c :: underscoreOthers false rest
    else if following then underscoreOthers true rest
    else '_' :: underscoreOthers true rest

/-- A name as the stem of a file name: small letters and digits with single underscores between. -/
def fileStem (name : String) : String := String.ofList (Text.trimBy (· == '_')
    (underscoreOthers false (Text.lower (Text.trim name)).toList))

def referredFile? (ref : Option String) (files : OrderedMap String) : Option String :=
  match ref with
  | none => none
  | some ref =>
    if Text.isBlankText ref then none
    else
      let name := Reference.fileName (Text.trim ref)
      if files.has name then some name else none

def namesakeFile? (task : Option String) (files : OrderedMap String) (suffix : String) : Option String :=
  match task with
  | none => none
  | some task =>
    if Text.isBlankText task then none
    else
      let stem := fileStem task
      let long := stem ++ "_" ++ suffix
      if files.has (long ++ ".json") then some (long ++ ".json")
      else if files.has (stem ++ ".json") then some (stem ++ ".json")
      else files.keys.find? fun key =>
        let found := fileStem (Reference.stripExtension key)
        found == stem || found == long

def descriptorFile? (ref task : Option String) (files : OrderedMap String) (suffix : String) : Option String :=
  (referredFile? ref files).or (namesakeFile? task files suffix)

end ProcessForge.Bonita
