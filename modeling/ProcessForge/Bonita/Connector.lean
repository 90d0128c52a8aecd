import ProcessForge.Bonita.Expression
import ProcessForge.Defaults
import ProcessForge.Json.Value

/-! Connectors of service tasks: a name, a definition with its version, the event at which it runs, and a
    configuration with parameters. -/

namespace ProcessForge.Bonita

open Xml

structure Connector where
  name : String
  definition : String
  event : String
  version : String
  parameters : List (String × Draft)
  deriving Repr, Inhabited

def parameterDraft (key : String) (value : Draft) : Draft :=
  piece "parameters" "connectorconfiguration:ConnectorParameter" [("key", some key)] [value]

def Connector.draft (c : Connector) : Draft :=
  piece "connectors" "process:Connector" [
    ("name", some c.name), ("definitionId", some c.definition), ("event", some c.event),
    ("ignoreErrors", some "true"), ("definitionVersion", some c.version)] [
    piece "configuration" "connectorconfiguration:ConnectorConfiguration" [
      ("definitionId", some c.definition), ("version", some c.version),
      ("modelVersion", some Defaults.connectorModelVersion)]
      (c.parameters.map fun (key, value) => parameterDraft key value)]

/-- Name of a connector: the id of its descriptor, else the name of the task, else a default. -/
def connectorName (descriptor : OrderedMap Json) (task : Option String) (default : String) :
    String :=
  let id := ((descriptor.value? "id").bind Json.text?).filter (· != "")
  (id.or (task.filter (· != ""))).getD default

def textMember? (members : OrderedMap Json) (name : String) : Option String := (members.value? name).bind Json.text?

def objectMember? (members : OrderedMap Json) (name : String) : Option (OrderedMap Json) :=
  (members.value? name).bind Json.members?

end ProcessForge.Bonita
