import ProcessForge.Compilation

/-! The command line. Options may be shortened as long as they stay unique, and a value may follow an
    equals sign. Help and usage faults end a run before anything is done. -/

namespace ProcessForge.CommandLine

/-! ### Arguments -/

inductive Argument where
  | value
  | option (name : String) (value : Option String)
  | unknown
  | ambiguous
  | separator
  deriving DecidableEq, Repr, Inhabited

/-- A text before and after its first equals sign. -/
def splitAssignment (arg : String) : String × Option String :=
  match Text.splitFirst? '=' arg.toList with
  | some (name, value) => (String.ofList name, some (String.ofList value))
  | none => (arg, none)

def isNegativeNumber (arg : String) : Bool :=
  match arg.toList with
  | '-' :: rest =>
    let whole := rest.takeWhile Text.isDigit
    match rest.dropWhile Text.isDigit with
    | [] => !whole.isEmpty
    | '.' :: fraction => !fraction.isEmpty && fraction.all Text.isDigit
    | _ => false
  | _ => false

/-- An argument that no option matches: a value if it is a negative number or has a space in it. -/
def classifyOther (arg : String) : Argument :=
  if isNegativeNumber arg || arg.toList.contains ' ' then .value else .unknown

def matchShortened (options : List String) (arg : String) : Argument :=
  if arg.startsWith "--" then
    let (name, value) := splitAssignment arg
    match options.filter fun option => option.startsWith name with
    | [] => classifyOther arg
    | [option] => .option option value
    | _ => .ambiguous
  else
    let flag := String.ofList (arg.toList.take 2)
    if options.contains flag then .option flag (some (String.ofList (arg.toList.drop 2)))
    else classifyOther arg

/-- What an argument is for a command with the given options. -/
def classify (options : List String) (arg : String) : Argument :=
  if !arg.startsWith "-" || arg == "-" then .value
  else if options.contains arg then .option arg none
  else match splitAssignment arg with
    | (name, some value) =>
      if options.contains name then .option name (some value) else matchShortened options arg
    | (_, none) => matchShortened options arg

/-- What all arguments are. Behind a separator everything is a value. -/
def classifyAll (options : List String) : List String → List (String × Argument)
  | [] => []
  | arg :: rest =>
    if arg == "--" then (arg, .separator) :: rest.map fun arg => (arg, .value)
    else (arg, classify options arg) :: classifyAll options rest

/-! ### The compile command -/

/-- What to compile. -/
structure Options where
  target : String := "camunda"
  modelDirectory : String := Defaults.modelDirectory
  output : String := Defaults.outputDirectory
  deriving DecidableEq, Repr, Inhabited

/-- What a command line asks for. -/
inductive Request where
  | help
  | usageFault
  | compile (options : Options)
  deriving DecidableEq, Repr, Inhabited

def compileOptions : List String := ["-h", "--help", "--target", "--model-dir", "--output"]

/-- Takes an option over; refuses a target that is not known. -/
def Options.put? (o : Options) (name value : String) : Option Options :=
  match name with
  | "--target" =>
    if value == "camunda" || value == "bonita" then some { o with target := value } else none
  | "--model-dir" => some { o with modelDirectory := value }
  | "--output" => some { o with output := value }
  | _ => none

/-- The value behind an option, and the rest. Separators around the value are passed over. -/
def takeValue? : List (String × Argument) → Option (String × List (String × Argument))
  | (_, .separator) :: (value, .value) :: rest => some (value, rest)
  | (value, .value) :: (_, .separator) :: rest => some (value, rest)
  | (value, .value) :: rest => some (value, rest)
  | _ => none

/-- Whether a flag with characters behind it is the help flag repeated. -/
def isRepeatedHelp (name : String) (value : Option String) : Bool :=
  match value with
  | none => true
  | some value => name == "-h" && value != "" && value.toList.all (· == 'h')

/-- Reads the arguments of the command. `strange` says that some were not understood. -/
def readCompile (fuel : Nat) (strange : Bool) (o : Options) : List (String × Argument) → Request
  | [] => if strange then .usageFault else .compile o
  | (_, argument) :: rest =>
    match fuel with
    | 0 => .usageFault
    | fuel + 1 =>
      match argument with
      | .option name value =>
        if name == "-h" || name == "--help" then
          if isRepeatedHelp name value then .help else .usageFault
        else
          let found := match value with
            | some value => some (value, rest)
            | none => takeValue? rest
          match found with
          | none => .usageFault
          | some (value, rest) =>
            match o.put? name value with
            | some o => readCompile fuel strange o rest
            | none => .usageFault
      | _ => readCompile fuel true o rest

/-- The request of the arguments behind the command. -/
def compileRequest (strange : Bool) (args : List String) : Request :=
  let classified := classifyAll compileOptions args
  if classified.any fun (_, argument) => argument == .ambiguous then .usageFault
  else readCompile (classified.length + 1) strange {} classified

def readCommand (strange : Bool) : List String → Request
  | [] => if strange then .usageFault else .help
  | arg :: rest =>
    if arg == "--" then .usageFault
    else match classify ["-h", "--help"] arg with
      | .value => if arg == "compile" then compileRequest strange rest else .usageFault
      | .option name value => if isRepeatedHelp name value then .help else .usageFault
      | _ => readCommand true rest

def request (args : List String) : Request := readCommand false args

/-! ### Runs -/

/-- How a run ends. A failure that is no fault of the model's author stops it at once. -/
structure Outcome where
  exitCode : Nat := 0
  lines : List String := []
  files : FileTree
  failure : Option Failure := none

def rule : String := String.ofList (List.replicate 60 '=')

def banner : List String := [rule, "🚀 BPMN to BPMS Compiler", rule]

def closing (output : String) (count : Nat) : List String :=
  [rule, "✅ Compilation complete!", rule, "📁 Output: " ++ output, "   - " ++ toString count ++ " file(s)"]

def runCompile (o : Options) (files : FileTree) : Outcome :=
  if !files.isDirectory (FileTree.pathOf o.modelDirectory) then
    { exitCode := 1, files := files
      lines := banner ++ ["❌ Model directory not found: " ++ o.modelDirectory] }
  else
    match files.makeDirectory (FileTree.pathOf o.output) with
    | .error failure => { exitCode := 1, files := files, lines := banner, failure := some failure }
    | .ok files =>
      let (result, world) := ExceptT.run (Compilation.workflow o.target o.modelDirectory o.output) ⟨files, []⟩
      let lines := banner ++ ["📌 Target: " ++ o.target] ++ logLines world.notices
      match result with
      | .ok artifacts => { lines := lines ++ closing o.output artifacts.length, files := world.files }
      | .error failure =>
        if failure.isReported then
          { exitCode := 1, files := world.files
            lines := lines ++ ["❌ Compilation failed: " ++ failure.message] }
        else { exitCode := 1, files := world.files, lines := lines, failure := some failure }

def run (args : List String) (files : FileTree) : Outcome :=
  match request args with
  | .help => { files := files }
  | .usageFault => { exitCode := 2, files := files }
  | .compile options => runCompile options files

end ProcessForge.CommandLine
