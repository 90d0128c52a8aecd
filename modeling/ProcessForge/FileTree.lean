import ProcessForge.Failure
import ProcessForge.Text.Blank
import ProcessForge.Text.Search

/-! Trees of files as values. A path is the list of its names; directories may be empty, and a directory
    with something in it need not be listed. -/

namespace ProcessForge

/-- What a path leads to. -/
inductive FileEntry where
  | file (bytes : ByteArray)
  | directory

abbrev FileTree := List (List String × FileEntry)

namespace FileTree

/-- The names that a path is written with; empty ones and single dots do not count. -/
def parts (path : String) : List String :=
  ((Text.splitAtChar '/' path.toList).map String.ofList).filter fun name =>
    name != "" && name != "."

def isAbsolute (path : String) : Bool := path.toList.head? == some '/'

/-- Where a path leads from a directory. Two dots lead up, and a slash in front leads from the root. -/
def follow (directory : List String) (path : String) : List String :=
  (parts path).foldl (fun names name => if name == ".." then names.dropLast else names ++ [name])
    (if isAbsolute path then [] else directory)

def pathOf (path : String) : List String := follow [] path

def showPath (path : String) : String :=
  let names := "/".intercalate (parts path)
  if isAbsolute path then "/" ++ names else if names.isEmpty then "." else names

def bytes? (t : FileTree) (path : List String) : Option ByteArray :=
  t.findSome? fun (p, entry) =>
    match entry with
    | .file bytes => if p == path then some bytes else none
    | .directory => none

def isDirectory (t : FileTree) (path : List String) : Bool :=
  t.any fun (p, entry) =>
    match entry with
    | .directory => path.isPrefixOf p
    | .file _ => path.isPrefixOf p && p != path

def isPresent (t : FileTree) (path : List String) : Bool := (t.bytes? path).isSome || t.isDirectory path

/-- Names without repetition, in the order of their characters. -/
def sortedNames (names : List String) : List String := (names.mergeSort fun a b => !(b < a)).eraseReps

/-- Names in a directory, in the order of their characters. -/
def names (t : FileTree) (directory : List String) : List String :=
  sortedNames (t.filterMap fun (p, _) =>
    if directory.isPrefixOf p then (p.drop directory.length).head? else none)

/-- What the file under a path holds. -/
def opened? (t : FileTree) (path : String) : Option ByteArray := t.bytes? (pathOf path)

/-- The text of a file, with line feeds as line ends. -/
def text (t : FileTree) (path : List String) : Except Failure String :=
  match t.bytes? path with
  | some bytes =>
    match String.fromUTF8? bytes with
    | some s => .ok (String.ofList (Text.unifyNewlines s.toList))
    | none => .error .undecodableText
  | none => .error .isDirectory

def addDirectory (t : FileTree) (path : List String) : FileTree :=
  if t.isDirectory path then t else t ++ [(path, .directory)]

def write (t : FileTree) (path : List String) (content : String) : FileTree :=
  t.filter (fun (p, _) => p != path) ++ [(path, .file content.toUTF8)]

/-- Makes a directory with all that it is in, unless a file is in the way. -/
def makeDirectory (t : FileTree) (path : List String) : Except Failure FileTree :=
  if (List.range (path.length + 1)).any fun n => (t.bytes? (path.take n)).isSome then .error .fileInTheWay
  else .ok (t.addDirectory path)

/-- Writes a file and makes the directory for it. -/
def save (t : FileTree) (path : List String) (content : String) : Except Failure FileTree := do
  let t ← t.makeDirectory path.dropLast
  if t.isDirectory path then .error .isDirectory else return t.write path content

/-- Paths of all files below a directory, as they are shown, in the order of their characters. -/
def filesBelow (t : FileTree) (directory : List String) : List String :=
  sortedNames (t.filterMap fun (p, entry) =>
    match entry with
    | .file _ =>
      if directory.isPrefixOf p then some ("/".intercalate (p.drop directory.length)) else none
    | .directory => none)

end FileTree

end ProcessForge
