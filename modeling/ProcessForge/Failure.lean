/-! Everything that can stop a compilation. Most causes are faults of the model that is compiled and
    carry a message for its author. The others are values of a kind that no later step can use. -/

namespace ProcessForge

/-- What is wrong with one value of a configuration. -/
inductive ConfigurationFault where
  | missing
  | notText
  | notList
  | notMap
  | notRecord
  | notInteger
  | unreadableInteger
  | fractionalInteger
  | infiniteInteger
  | oversizedInteger
  deriving DecidableEq, Repr, Inhabited

/-- Why a compilation stops. -/
inductive Failure where
  | invalidTimer (event duration : String)
  | invalidDuration (text : Option String)
  | calendarDuration (text : String)
  | unsupportedField (line : String)
  | unsupportedLine (line : String)
  | unclosedClass (name : String)
  | unclosedEnum (name : String)
  | reservedField (field owner : String)
  | malformedConfiguration
  | invalidConfiguration (faults : List (String × ConfigurationFault))
  | malformedDocument
  | unexpectedRoot (name : String)
  | processWithoutId
  | missingPool
  | missingPoolId
  | missingRoles
  | missingProcessFile (directory : String)
  | missingDiagramFile (directory : String)
  | laneWithoutId
  | forbiddenText
  | unusableValue
  | missingActorId
  | immeasurableDuration
  | hugeNumber
  | malformedFragment
  | missingChild
  | malformedFormIndex
  | undecodableText
  | isDirectory
  | fileInTheWay
  | unknownDialect
  | unknownNodeKind
  deriving DecidableEq, Repr, Inhabited

/-- Which texts or documents of a model a failure is about. -/
inductive FailureKind where
  | format
  | document
  | internal
  deriving DecidableEq, Repr, Inhabited

/-- Faults of a text, faults of a document, and the rest. -/
def Failure.kind : Failure → FailureKind
  | .invalidTimer .. | .invalidDuration .. | .calendarDuration .. | .unsupportedField ..
  | .unsupportedLine .. | .unclosedClass .. | .unclosedEnum .. | .reservedField ..
  | .malformedConfiguration | .invalidConfiguration .. => .format
  | .malformedDocument | .unexpectedRoot .. | .processWithoutId | .missingPool | .missingPoolId
  | .missingRoles | .missingProcessFile .. | .missingDiagramFile .. => .document
  | _ => .internal

/-- Whether the failure is reported to the author of the model. -/
def Failure.isReported (f : Failure) : Bool := f.kind != .internal

def Failure.message : Failure → String
  | .invalidTimer event duration =>
    "Invalid ISO8601 duration format for timer event '" ++ event ++ "': '" ++ duration
      ++ "'. Expected format: P[n]Y[n]M[n]DT[n]H[n]M[n]S or P[n]W (e.g., PT5M, P1D, PT1H30M)"
  | .invalidDuration text => "Invalid ISO-8601 duration: '" ++ text.getD "None" ++ "'"
  | .calendarDuration text =>
    "Duration '" ++ text ++ "' uses years or months and cannot be converted to milliseconds"
  | .unsupportedField line => "Unsupported class field line: " ++ line
  | .unsupportedLine line => "Unsupported PlantUML line: " ++ line
  | .unclosedClass name => "Unclosed class block: " ++ name
  | .unclosedEnum name => "Unclosed enum block: " ++ name
  | .reservedField field owner =>
    "Field '" ++ field ++ "' in class '" ++ owner ++ "' is a reserved keyword"
  | .malformedConfiguration => "Invalid JSON in config file"
  | .invalidConfiguration _ => "Invalid process configuration"
  | .malformedDocument => "Failed to parse XML document"
  | .unexpectedRoot name => "Root element is not 'definitions' but '" ++ name ++ "'"
  | .processWithoutId => "Process element has no id"
  | .missingPool => "No Pool element found in proc document"
  | .missingPoolId => "No pool id found in proc document"
  | .missingRoles => "No roles found in organization, cannot generate organization file"
  | .missingProcessFile directory => "No .bpmn file found in " ++ directory
  | .missingDiagramFile directory => "No .proc skeleton found in " ++ directory
  | _ => ""

end ProcessForge
