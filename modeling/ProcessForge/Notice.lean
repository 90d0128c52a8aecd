import ProcessForge.Text.Blank

/-! What a compilation reports while it runs: its progress and everything that it leaves out. -/

namespace ProcessForge

/-- One report. -/
inductive Notice where
  | parsing
  | modelRead (file : String) (processes : Nat)
  | configurationMissing (file : String)
  | organizationRead (roles : Nat)
  | classesRead (classes : Nat)
  | enriching
  | variablesApplied (count : Nat)
  | generating (engine : String)
  | organizationSkipped (file : String)
  | generated (count : Nat)
  | exporting
  | exported
  | exportTarget (target : String)
  | exportDirectory (directory : String)
  | exportedFile (name : String)
  | unreadableDescriptor (file : String)
  | unreadableDecision (file : String)
  | unreadableConnector (file : String)
  | unreadableTable (file : String)
  | unreadableFragment (key : String)
  | missingTemplate (task : String)
  | missingForm (form : String)
  | missingBusinessType
  | unknownShort (short name : String)
  deriving DecidableEq, Repr, Inhabited

namespace Notice

def text : Notice → String
  | parsing => "🧩 Parsing model..."
  | modelRead file processes => "   ✅ " ++ file ++ ": " ++ toString processes ++ " process(es)"
  | configurationMissing file => "   ⚠️ " ++ file ++ " not found, using an empty configuration"
  | organizationRead roles => "   ✅ Organization: " ++ toString roles ++ " role(s)"
  | classesRead classes => "   ✅ Class model: " ++ toString classes ++ " class(es)"
  | enriching => "🔗 Enriching model..."
  | variablesApplied count => "   ✅ " ++ toString count ++ " global variable(s) applied"
  | generating engine => "⚙️ Generating " ++ engine ++ " artifacts..."
  | organizationSkipped file => "   ⚠️ No organization roles, " ++ file ++ " skipped"
  | generated count => "   ✅ " ++ toString count ++ " artifact(s) generated"
  | exporting => "📦 Exporting artifacts..."
  | exported => "✅ Export complete!"
  | exportTarget target => "   - Target: " ++ target
  | exportDirectory directory => "   - Output: " ++ directory
  | exportedFile name => "   - " ++ name
  | unreadableDescriptor file => "   ⚠️ Error processing JSON content for '" ++ file ++ "'"
  | unreadableDecision file => "   ⚠️ Error processing DMN content for '" ++ file ++ "'"
  | unreadableConnector file => "   ⚠️ Failed to parse connector config '" ++ file ++ "'"
  | unreadableTable file => "   ⚠️ Failed to read decision table '" ++ file ++ "'"
  | unreadableFragment key => "   ⚠️ Failed to append Bonita vendor XML fragment '" ++ key ++ "'"
  | missingTemplate task => "   ⚠️ Email template not found for task '" ++ task ++ "'"
  | missingForm form => "   ⚠️ No form UUID found for form '" ++ form ++ "'"
  | missingBusinessType => "   ⚠️ No BusinessObjectType in proc document, data objects skipped"
  | unknownShort short name =>
    "   ⚠️ Unknown namespace prefix '" ++ short ++ "' for attribute '" ++ name ++ "', skipped"

def lines (notice : Notice) : List String :=
  ((Text.lines notice.text.toList).filter fun line => !line.isEmpty).map String.ofList

end Notice

def logLines (notices : List Notice) : List String := notices.flatMap Notice.lines

end ProcessForge
