import ProcessForge.Configuration.Model
import ProcessForge.Failure
import ProcessForge.Json.Reader
import ProcessForge.Text.Blank

/-! Reader of configurations. All faults are collected, in the order of the fields and depth first, each
    with the path to its value. A field is found under each of its spellings, the first one wins.
    Fields that are not known are ignored. -/

namespace ProcessForge.Configuration

/-- Faults found, with their paths. -/
abbrev Faults := List (String × ConfigurationFault)

/-- A value with all faults found in it. -/
structure Checked (α : Type) where
  value : α
  faults : Faults := []

def Checked.fine {α : Type} (value : α) : Checked α := ⟨value, []⟩

/-- A single fault; some value has to stand in for the faulty one. -/
def Checked.fault {α : Type} (value : α) (fault : ConfigurationFault) : Checked α := ⟨value, [("", fault)]⟩

def Checked.below {α : Type} (step : String) (c : Checked α) : Checked α :=
  { c with faults := c.faults.map fun (path, fault) =>
    (if path.isEmpty then step else step ++ "." ++ path, fault) }

/-- The first spelling under which a field is present, with its value. -/
def field? (members : OrderedMap Json) (spellings : List String) : Option (String × Json) :=
  spellings.findSome? fun key => (members.value? key).map fun v => (key, v)

def optional {α : Type} (members : OrderedMap Json) (spellings : List String)
    (read : Json → Checked α) (absent : α) : Checked α :=
  match field? members spellings with
  | some (key, v) => (read v).below key
  | none => .fine absent

def readText : Json → Checked String
  | .str s => .fine s
  | _ => .fault "" .notText

def readOptionalText : Json → Checked (Option String)
  | .null => .fine none
  | .str s => .fine (some s)
  | _ => .fault none .notText

def requiredText (members : OrderedMap Json) (key : String) : Checked String :=
  match members.value? key with
  | some v => (readText v).below key
  | none => ⟨"", [(key, .missing)]⟩

def optionalText (members : OrderedMap Json) (spellings : List String) : Checked (Option String) :=
  optional members spellings readOptionalText none

/-- Items of a list with the position of each in its path. -/
def readItems {α : Type} (read : Json → Checked α) : Nat → List Json → Checked (List α)
  | _, [] => .fine []
  | index, item :: rest =>
    let first := (read item).below (toString index)
    let others := readItems read (index + 1) rest
    ⟨first.value :: others.value, first.faults ++ others.faults⟩

def readList {α : Type} (read : Json → Checked α) : Json → Checked (List α)
  | .arr items => readItems read 0 items
  | _ => .fault [] .notList

def readMap : Json → Checked (OrderedMap Json)
  | .obj members => .fine members
  | _ => .fault [] .notMap

/-! ### Integers -/

def hasDoubledUnderscore : List Char → Bool
  | '_' :: '_' :: _ => true
  | _ :: rest => hasDoubledUnderscore rest
  | [] => false

def readDigits? : List Char → Option Nat
  | [] => none
  | cs =>
    if cs.head? == some '_' || cs.getLast? == some '_' || !cs.all (fun c => c.isDigit || c == '_')
      || hasDoubledUnderscore cs then none
    else some ((cs.filter Char.isDigit).foldl (fun n c => 10 * n + (c.toNat - '0'.toNat)) 0)

def isNumberBlank (c : Char) : Bool := Text.isBlank c && !(28 ≤ c.toNat && c.toNat ≤ 31)

/-- The digits in front of a fraction of zeros; the whole text if there is no fraction. -/
def dropZeroFraction? (cs : List Char) : Option (List Char) :=
  match cs.dropWhile (· != '.') with
  | [] => some cs
  | _ :: zeros => if zeros.all (· == '0') then some (cs.takeWhile (· != '.')) else none

/-- A whole number in a text: blanks around, a sign, digits, and a fraction of zeros. -/
def integerOfText? (s : String) : Option Int :=
  let cs := Text.trimBy isNumberBlank s.toList
  let (negative, body) := match cs with
    | '-' :: rest => (true, rest)
    | '+' :: rest => (false, rest)
    | _ => (false, cs)
  ((dropZeroFraction? body).bind readDigits?).map fun n =>
    if negative then -(n : Int) else (n : Int)

/-- A whole number, also written as a truth value, a number with a zero fraction or a text. -/
def readInteger : Json → Checked (Option Int)
  | .null => .fine none
  | .int n => .fine (some n)
  | .bool b => .fine (some (if b then 1 else 0))
  | .float x =>
    match x with
    | .finite .. =>
      match x.toInt? with
      | some n => if n.natAbs < 9223372036854775808 then .fine (some n) else .fault none .oversizedInteger
      | none => .fault none .fractionalInteger
    | _ => .fault none .infiniteInteger
  | .str s =>
    match integerOfText? s with
    | some n => .fine (some n)
    | none => .fault none .unreadableInteger
  | _ => .fault none .notInteger

/-! ### Records -/

/-- A record; anything but an object is a fault. -/
def readRecord {α : Type} (read : OrderedMap Json → Checked α) (absent : α) : Json → Checked α
  | .obj members => read members
  | _ => .fault absent .notRecord

def vendorSpellings : List String := ["vendor_specific_attributes", "vendorSpecificAttributes"]

def readVariable : Json → Checked GlobalVariable :=
  readRecord (fun members =>
    let name := requiredText members "name"
    let value := optionalText members ["value"]
    ⟨{ name := name.value, value := value.value }, name.faults ++ value.faults⟩) default

def readLaneSetting : Json → Checked LaneSetting :=
  readRecord (fun members =>
    let name := requiredText members "name"
    let assignee := optionalText members ["assignee"]
    let vendor := optional members vendorSpellings readMap []
    ⟨{ name := name.value, assignee := assignee.value, vendorAttributes := vendor.value },
      name.faults ++ assignee.faults ++ vendor.faults⟩) default

def readNodeSetting : Json → Checked NodeSetting :=
  readRecord (fun members =>
    let name := requiredText members "name"
    let form := optionalText members ["formRef", "form_ref"]
    let emailJson := optionalText members ["emailJsonRef", "email_json_ref"]
    let emailFtl := optionalText members ["emailFtlRef", "email_ftl_ref"]
    let rest := optionalText members ["restCallRef", "rest_call_ref"]
    let dmn := optionalText members ["dmnRef", "dmn_ref"]
    let result := optionalText members ["dmnResultVariable", "dmn_result_variable"]
    let vendor := optional members vendorSpellings readMap []
    ⟨{ name := name.value, formRef := form.value, emailJsonRef := emailJson.value
       emailFtlRef := emailFtl.value, restCallRef := rest.value, dmnRef := dmn.value
       dmnResultVariable := result.value, vendorAttributes := vendor.value },
      name.faults ++ form.faults ++ emailJson.faults ++ emailFtl.faults ++ rest.faults
        ++ dmn.faults ++ result.faults ++ vendor.faults⟩) default

/-- What is configured for the parts of a process. -/
def readProcessSetting : Json → Checked ProcessSetting :=
  readRecord (fun members =>
    let lanes := optional members ["lanes"] (readList readLaneSetting) []
    let tasks := optional members ["tasks"] (readList readNodeSetting) []
    let events := optional members ["events"] (readList readNodeSetting) []
    ⟨{ lanes := lanes.value, tasks := tasks.value, events := events.value },
      lanes.faults ++ tasks.faults ++ events.faults⟩) default

def readEntry : Json → Checked ProcessEntry :=
  readRecord (fun members =>
    let id := requiredText members "id"
    let name := optionalText members ["name"]
    let setting := optional members ["config"] readProcessSetting {}
    ⟨{ id := id.value, name := name.value, setting := setting.value },
      id.faults ++ name.faults ++ setting.faults⟩) default

def readMailServer : Json → Checked MailServer :=
  readRecord (fun members =>
    let host := optionalText members ["host"]
    let port := optional members ["port"] readInteger none
    let username := optionalText members ["username"]
    let password := optionalText members ["password"]
    ⟨{ host := host.value, port := port.value, username := username.value
       password := password.value },
      host.faults ++ port.faults ++ username.faults ++ password.faults⟩) default

def readOptionalMailServer : Json → Checked (Option MailServer)
  | .null => .fine none
  | v => let server := readMailServer v
    ⟨some server.value, server.faults⟩

def check : Json → Checked Configuration :=
  readRecord (fun members =>
    let globals := optional members ["globalVariables", "global_variables"] (readList readVariable) []
    let processes := optional members ["processes"] (readList readEntry) []
    let server := optional members ["smtpConfig", "smtp_config"] readOptionalMailServer none
    ⟨{ globalVariables := globals.value, processes := processes.value
       mailServer := server.value },
      globals.faults ++ processes.faults ++ server.faults⟩) default

def ofJson (v : Json) : Except Failure Configuration :=
  let checked := check v
  if checked.faults.isEmpty then .ok checked.value
  else .error (.invalidConfiguration checked.faults)

def ofText (s : String) : Except Failure Configuration :=
  match Json.parse s with
  | .ok v => ofJson v
  | .error .malformed => .error .malformedConfiguration
  | .error .hugeNumber => .error .hugeNumber

end ProcessForge.Configuration
