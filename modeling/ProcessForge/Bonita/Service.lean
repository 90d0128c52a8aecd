import ProcessForge.Bonita.Call
import ProcessForge.Bonita.DescriptorFile
import ProcessForge.Bonita.Email
import ProcessForge.Json.Reader

/-! Connectors of configured service tasks: calls first, then e-mails. -/

namespace ProcessForge.Bonita

open Xml

/-- Files that describe what service tasks do. -/
structure ServiceFiles where
  calls : OrderedMap String := []
  emails : OrderedMap String := []
  templates : OrderedMap String := []
  deriving Repr, Inhabited

/-- The descriptor in a file: an object. A file that is no JSON is reported. -/
def readDescriptor (files : OrderedMap String) (file : Option String) :
    Planning (Option (OrderedMap Json)) := do
  match file.bind fun name => (files.value? name).map fun content => (name, content) with
  | none => return none
  | some (name, content) =>
    if name.isEmpty || Text.isBlankText content then return none
    match Json.parse content with
    | .ok v => return v.members?
    | .error .hugeNumber => throw .hugeNumber
    | .error .malformed =>
      Planning.note (.unreadableConnector name)
      return none

def addCall (files : ServiceFiles) (objects : OrderedMap BusinessObject) (task : NodeSetting)
    (place : Place) : Planning Unit := do
  let file := descriptorFile? task.restCallRef (some task.name) files.calls "rest"
  match ← readDescriptor files.calls file with
  | none => return
  | some descriptor =>
    match ← Work.ofExcept (callConnector? objects descriptor (some task.name)) with
    | none => return
    | some connector => Planning.edit place [.place connector.draft anchors]

/-- The connector of an e-mail. A template that cannot be found is reported. -/
def planEmail (objects : OrderedMap BusinessObject) (descriptor : OrderedMap Json) (task : String)
    (templateRef : Option String) (server : MailServer) (templates : OrderedMap String) :
    Planning Connector := do
  let template ← Work.ofExcept (emailTemplate? templates templateRef descriptor)
  if template.isNone then Planning.note (.missingTemplate task)
  let message := messageText descriptor (template.getD "")
  return emailConnector objects descriptor (some task) server message

def addEmail (files : ServiceFiles) (objects : OrderedMap BusinessObject)
    (server : Option MailServer) (task : NodeSetting) (place : Place) : Planning Unit := do
  match server with
  | none => return
  | some server =>
    let file := descriptorFile? task.emailJsonRef (some task.name) files.emails "email"
    match ← readDescriptor files.emails file with
    | none => return
    | some descriptor =>
      let connector ← planEmail objects descriptor task.name task.emailFtlRef server files.templates
      Planning.edit place [.place connector.draft anchors]

def hasText (s : Option String) : Bool := s.any fun s => !Text.isBlankText s

/-- Configured tasks that call or send something and are in the diagram. -/
def serviceTasks (config : Configuration) (d : Document) : List (NodeSetting × Place) :=
  let tasks := elementsByName d (some serviceTaskKinds)
  config.tasks.filterMap fun task =>
    if !Text.isBlankText task.name
        && (task.restCallRef.any (· != "") || task.emailJsonRef.any (· != "")) then
      (tasks.value? (nameKey (some task.name))).map fun place => (task, place)
    else none

def planConnectors (config : Configuration) (files : ServiceFiles) (d : Document) :
    Planning Unit := do
  let tasks := serviceTasks config d
  let objects := businessObjects d
  tasks.forM fun (_, place) => Planning.edit place [.clear (.plain "connectors")]
  tasks.forM fun (task, place) => do
    if hasText task.restCallRef then addCall files objects task place
    if hasText task.emailJsonRef then addEmail files objects config.mailServer task place

end ProcessForge.Bonita
