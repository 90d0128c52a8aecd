import ProcessForge.CommandLine

/-! The program: reads the model directory, runs the command line on it, writes the generated files and
    prints the reports. -/

namespace ProcessForge

/-- Every file and directory below a directory; deeper than `depth` levels nothing is read. -/
def readBelow (path : String) (names : List String) : Nat → IO FileTree
  | 0 => return []
  | depth + 1 => do
    let entries ← (← IO.FS.realPath path).readDir
    let mut found : FileTree := [(names, .directory)]
    for entry in entries do
      let below := path ++ "/" ++ entry.fileName
      let names := names ++ [entry.fileName]
      if ← entry.path.isDir then found := found ++ (← readBelow below names depth)
      else found := found ++ [(names, .file (← IO.FS.readBinFile below))]
    return found

def readModelFiles (directory : String) : IO FileTree := do
  if ← (← IO.FS.realPath directory).isDir then readBelow directory (FileTree.pathOf directory) 8
  else return []

def writeFiles (directory : String) (files : FileTree) : IO Unit := do
  IO.FS.createDirAll directory
  for path in files.filesBelow (FileTree.pathOf directory) do
    let names := FileTree.pathOf path
    IO.FS.createDirAll ("/".intercalate (directory :: names.dropLast))
    match files.bytes? (FileTree.pathOf directory ++ names) with
    | some bytes => IO.FS.writeBinFile (directory ++ "/" ++ path) bytes
    | none => return

def runProgram (args : List String) : IO UInt32 := do
  match CommandLine.request args with
  | .compile options =>
    let before ← readModelFiles options.modelDirectory
    let run := CommandLine.runCompile options before
    for line in run.lines do IO.println line
    if run.files.isDirectory (FileTree.pathOf options.output) then
      writeFiles options.output run.files
    return run.exitCode.toUInt32
  | _ => return (CommandLine.run args []).exitCode.toUInt32

end ProcessForge

def main (args : List String) : IO UInt32 := ProcessForge.runProgram args
