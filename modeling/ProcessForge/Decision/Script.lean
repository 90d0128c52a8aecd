import ProcessForge.Decision.Table
import ProcessForge.OrderedMap
import ProcessForge.Text.Blank
import ProcessForge.Text.Case
import ProcessForge.Text.Digit
import ProcessForge.Text.Search

/-! Compilation of decision tables to scripts. A script reads every tested column into a local variable,
    then has one conditional return for each rule, in the order of the table, and returns null at last.
    Each entry of a rule becomes a condition on the variable of its column. -/

namespace ProcessForge.Decision

/-! ### Types of columns -/

/-- A type without blanks and capitals; empty if there is none. -/
def typeKey (type : Option String) : String :=
  match type with
  | some type => Text.lower (Text.trim type)
  | none => ""

/-- Type of a script variable, for the types that have one. -/
def scriptType? (type : Option String) : Option String :=
  match typeKey type with
  | "string" => some "String"
  | "integer" => some "Integer"
  | "long" => some "Long"
  | "boolean" => some "Boolean"
  | "double" => some "Double"
  | "number" => some "Double"
  | _ => none

/-- Full class name of a type; text for all that are not known. -/
def className (type : Option String) : String := "java.lang." ++ (scriptType? type).getD "String"

/-! ### Names -/

/-- The part of a path in front of its first dot, unless the dot is its first character. -/
def rootVariable? (expression : String) : Option String :=
  let cs := Text.trimChars expression.toList
  if cs.isEmpty then none
  else
    let root := cs.takeWhile (· != '.')
    some (String.ofList (if root.isEmpty then cs else root))

/-- The part of a path behind its last dot, unless the dot is its first character. -/
def fieldName? (path : String) : Option String :=
  let cs := Text.trimChars path.toList
  if cs.isEmpty then none
  else
    let field := Text.afterLast '.' cs
    some (String.ofList (if field.length + 1 == cs.length then cs else field))

/-- Whether a character can stand in a variable name. -/
def isNameChar (c : Char) : Bool := c.isAlphanum || c == '_'

/-- A variable name for an expression: its last segment, with underscores for other characters. -/
def nameFor (expression : String) : String :=
  let segment := Text.afterLast '.' (Text.trimChars expression.toList)
  if segment.isEmpty then "value"
  else String.ofList (segment.map fun c => if isNameChar c then c else '_')

/-- The first of the names with a counter behind that is not in use. -/
def freshName (used : List String) (base : String) : Nat → Nat → String
  | 0, counter => base ++ toString counter
  | fuel + 1, counter =>
    let candidate := base ++ toString counter
    if used.contains candidate then freshName used base fuel (counter + 1) else candidate

/-- A variable name for an expression that is not in use. -/
def deriveName (used : List String) (expression : String) : String :=
  let base := nameFor expression
  if used.contains base then freshName used base used.length 1 else base

/-- Variable names for expressions, all different and different from the used ones. -/
def deriveNames : List String → List String → List String
  | _, [] => []
  | used, expression :: rest =>
    let name := deriveName used expression
    name :: deriveNames (used ++ [name]) rest

/-! ### Conditions -/

/-- A literal: quoted in columns of texts and of types that are not known. -/
def literal (type : Option String) (value : Option String) : String :=
  match value with
  | none => "null"
  | some value =>
    let trimmed := Text.trim value
    match trimmed.toList with
    | [] => "null"
    | first :: _ =>
      if first == '"' || first == '\'' || trimmed == "null" then trimmed
      else
        match scriptType? type with
        | none | some "String" => "\"" ++ trimmed ++ "\""
        | some _ => trimmed

def literals (type : Option String) (values : List Char) : List String :=
  ((Text.splitAtChar ',' values).filter fun v => !v.all Text.isBlank).map
    fun v => literal type (some (String.ofList v))

def listLiteral (items : List String) : String := "[" ++ ", ".intercalate items ++ "]"

/-- What an entry asks of the variable of its column. -/
inductive Condition where
  | always
  | oneOf (items : List String)
  | noneOf (items : List String)
  | related (test : String)
  | equals (value : String)
  | between (low high : String)
  deriving DecidableEq, Repr, Inhabited

def Condition.render (name : String) : Condition → String
  | always => "true"
  | oneOf items => listLiteral items ++ ".contains(" ++ name ++ ")"
  | noneOf items => "!(" ++ listLiteral items ++ ".contains(" ++ name ++ "))"
  | related test => name ++ " " ++ test
  | equals value => name ++ " == " ++ value
  | between low high =>
    "(" ++ name ++ " >= " ++ low ++ " && " ++ name ++ " <= " ++ high ++ ")"

/-- A decimal without a sign: digits, and a fraction that may be missing. -/
def readUnsigned? (cs : List Char) : Option (List Char × List Char) :=
  let digits := cs.takeWhile Text.isDigit
  let cs := cs.dropWhile Text.isDigit
  if digits.isEmpty then none
  else match cs with
    | '.' :: rest =>
      let fraction := rest.takeWhile Text.isDigit
      if fraction.isEmpty then some (digits, cs)
      else some (digits ++ '.' :: fraction, rest.dropWhile Text.isDigit)
    | _ => some (digits, cs)

/-- A decimal; a minus sign may stand in front. -/
def readDecimal? : List Char → Option (List Char × List Char)
  | '-' :: rest => (readUnsigned? rest).map fun (digits, rest) => ('-' :: digits, rest)
  | cs => readUnsigned? cs

/-- A range: two decimals with two dots between them. -/
def readRange? (cs : List Char) : Option (String × String) := do
  let (low, rest) ← readDecimal? cs
  let rest ← Text.dropPrefix? ['.', '.'] (rest.dropWhile Text.isBlank)
  let (high, rest) ← readDecimal? (rest.dropWhile Text.isBlank)
  if rest.isEmpty then return (String.ofList low, String.ofList high) else none

def negated? (cs : List Char) : Option (List Char) :=
  (Text.dropPrefix? "not(".toList cs).bind fun rest => Text.dropSuffix? [')'] rest

def hasRelation (cs : List Char) : Bool := cs.any fun c => c == '>' || c == '<' || c == '='

/-- The condition of an entry that is a truth value, a range or a constant. -/
def valueCondition (type : Option String) (cs : List Char) : Condition :=
  let small := Text.lower (String.ofList cs)
  if small == "true" || small == "false" then .equals small
  else match readRange? cs with
    | some (low, high) => .between low high
    | none => .equals (literal type (some (String.ofList cs)))

def singleCondition (type : Option String) (cs : List Char) : Condition :=
  match cs with
  | '!' :: '=' :: _ | '>' :: _ | '<' :: _ => .related (String.ofList cs)
  | '=' :: rest => .equals (String.ofList (Text.trimChars rest))
  | _ => valueCondition type cs

/-- The condition of an entry without blanks around it. -/
def conditionOf (type : Option String) (cs : List Char) : Condition :=
  if cs.isEmpty || cs == ['-'] then .always
  else match negated? cs with
    | some items => .noneOf (literals type (Text.trimChars items))
    | none =>
      if cs.contains ',' && !hasRelation cs then .oneOf (literals type cs)
      else singleCondition type cs

def condition (type : Option String) (entry : String) : Condition := conditionOf type (Text.trimChars entry.toList)

/-! ### Scripts -/

/-- A tested column with its variable; one without an expression has no variable in the script. -/
structure Column where
  expression : String
  type : Option String := none
  name : String
  deriving DecidableEq, Repr, Inhabited

def Column.isTested (c : Column) : Bool := c.expression != ""

def columns (inputs : List Input) : List Column :=
  let expressions := inputs.map fun input => Text.trim input.expression
  (inputs.zip (expressions.zip (deriveNames [] expressions))).map
    fun (input, expression, name) => { expression := expression, type := input.type, name := name }

/-- Reads a path without failing at a missing part. -/
def safePath (expression : String) : String :=
  String.ofList (Text.replaceAll ['.'] ['?', '.'] (Text.trimChars expression.toList))

def Column.declaration (c : Column) : String :=
  match scriptType? c.type with
  | none => "def " ++ c.name ++ " = " ++ safePath c.expression ++ "\n"
  | some type =>
    type ++ " " ++ c.name ++ " = (" ++ safePath c.expression ++ " as " ++ type ++ ")\n"

/-- Conditions of a rule that are not always met, each with the variable it is about. -/
def ruleConditions : List Column → List String → List (String × Condition)
  | [], _ => []
  | c :: rest, entries =>
    let others := ruleConditions rest entries.tail
    let test := condition c.type (entries.head?.getD "")
    if c.isTested && test != .always then (c.name, test) :: others else others

def conjunction (conditions : List (String × Condition)) : String :=
  if conditions.isEmpty then "true"
  else " && ".intercalate (conditions.map fun (name, test) => test.render name)

def ruleText (columns : List Column) (output : Option Output) (rule : Rule) : String :=
  "if (" ++ conjunction (ruleConditions columns rule.entries) ++ ") \x7b\n    return "
    ++ literal (output.bind Output.type) rule.result ++ "\n\x7d\n\n"

/-- Values that are not empty, each once and in the order of their first occurrence. -/
def distinct (values : List String) : List String :=
  values.foldl (fun found v => if v == "" || found.contains v then found else found ++ [v]) []

def Column.line (c : Column) : String :=
  let type := match scriptType? c.type with
    | some type => " (" ++ type ++ ")"
    | none => ""
  " * - " ++ c.expression ++ type ++ "\n"

def header (table : Table) (columns : List Column) : String :=
  let roots := distinct (table.inputs.filterMap fun input => rootVariable? input.expression)
  let outputs := table.rules.map fun rule => literal (table.output.bind Output.type) rule.result
  let returns := distinct (outputs.filter (· != "null"))
  "/*\n * Bonita Groovy script\n"
    ++ (if roots.isEmpty then "" else
      " * Expected available variable" ++ (if 1 < roots.length then "s" else "") ++ ": "
        ++ ", ".intercalate roots ++ "\n")
    ++ String.join ((columns.filter Column.isTested).map Column.line)
    ++ (if returns.isEmpty then "" else " * Returns: " ++ " | ".intercalate returns ++ "\n")
    ++ " */\n\n"

/-- What stands in front of the rules: the comment and the variables. -/
def preamble (table : Table) : String :=
  let columns := columns table.inputs
  header table columns ++ String.join ((columns.filter Column.isTested).map Column.declaration) ++ "\n"

/-- The conditional returns of the rules, and the return of null behind them. -/
def chain (table : Table) : String :=
  String.join (table.rules.map (ruleText (columns table.inputs) table.output)) ++ "return null\n"

def script (table : Table) : String := preamble table ++ chain table

end ProcessForge.Decision
