import ProcessForge.Json.Value

/-! The configuration of a model: global variables, what lanes and nodes of each process are bound to,
    and the mail server. -/

namespace ProcessForge

structure GlobalVariable where
  name : String
  value : Option String := none
  deriving Repr, Inhabited

/-- What is configured for a lane. -/
structure LaneSetting where
  name : String
  assignee : Option String := none
  vendorAttributes : OrderedMap Json := []
  deriving Repr, Inhabited

/-- What is configured for a task or an event. -/
structure NodeSetting where
  name : String
  formRef : Option String := none
  emailJsonRef : Option String := none
  emailFtlRef : Option String := none
  restCallRef : Option String := none
  dmnRef : Option String := none
  dmnResultVariable : Option String := none
  vendorAttributes : OrderedMap Json := []
  deriving Repr, Inhabited

/-- What is configured for a process. -/
structure ProcessSetting where
  lanes : List LaneSetting := []
  tasks : List NodeSetting := []
  events : List NodeSetting := []
  deriving Repr, Inhabited

/-- A process and what is configured for it. -/
structure ProcessEntry where
  id : String
  name : Option String := none
  setting : ProcessSetting := {}
  deriving Repr, Inhabited

structure MailServer where
  host : Option String := none
  port : Option Int := none
  username : Option String := none
  password : Option String := none
  deriving Repr, Inhabited

structure Configuration where
  globalVariables : List GlobalVariable := []
  processes : List ProcessEntry := []
  mailServer : Option MailServer := none
  deriving Repr, Inhabited

def ProcessSetting.task? (s : ProcessSetting) (name : Option String) : Option NodeSetting :=
  s.tasks.find? fun task => some task.name == name

/-- The global variables that have a value; the last value of a name counts. -/
def Configuration.globals (c : Configuration) : OrderedMap String :=
  OrderedMap.ofList (c.globalVariables.filterMap fun v => v.value.map fun value => (v.name, value))

/-- What is configured for a process: its first entry counts. -/
def Configuration.setting? (c : Configuration) (id : String) : Option ProcessSetting :=
  (c.processes.find? fun entry => entry.id == id).map ProcessEntry.setting

/-- All configured tasks, process by process. -/
def Configuration.tasks (c : Configuration) : List NodeSetting := c.processes.flatMap fun entry => entry.setting.tasks

end ProcessForge
