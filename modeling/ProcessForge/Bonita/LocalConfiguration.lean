import ProcessForge.Bonita.Diagram
import ProcessForge.Defaults
import ProcessForge.Organization.Model
import ProcessForge.Process.Model

/-! The configuration that goes with a diagram: who takes the lanes, and which connectors are used. -/

namespace ProcessForge.Bonita

open Xml

/-- Name of the file: the id of the pool. -/
def configurationFile (d : Document) : Except Failure String :=
  match ((pool? d).bind fun pool => pool.element.tag.value? idLabel).filter (· != "") with
  | some id => .ok (id ++ ".conf")
  | none => .error .missingPoolId

/-- A character with the marks of markup made harmless. -/
def escapeMark (c : Char) : List Char :=
  match c with
  | '&' => "&amp;".toList
  | '<' => "&lt;".toList
  | '>' => "&gt;".toList
  | '\'' => "&#39;".toList
  | '"' => "&#34;".toList
  | c => [c]

/-- A text with the marks of markup made harmless. -/
def escapeMarks (s : String) : String := String.ofList (s.toList.flatMap escapeMark)

/-- The first actor of the first role that has one. -/
def firstUser (organization : Option Organization) : String :=
  let found := organization.bind fun o =>
    o.roles.findSome? fun role => role.actors.head?.map Actor.name
  found.getD Defaults.userName

def laneMapping (lane : Lane) : String :=
  let users := match lane.actor.filter (· != "") with
    | some actor =>
      "      <users>\n        <user>" ++ escapeMarks actor ++ "</user>\n      </users>\n"
    | none => "      <users/>\n"
  "    <actorMapping name=\"" ++ escapeMarks (lane.name.getD "") ++ "\">\n"
    ++ "      <groups/>\n      <memberships/>\n      <roles/>\n" ++ users
    ++ "    </actorMapping>\n"

def definitionMapping (id version implementation : String) : String :=
  "  <definitionMappings type=\"CONNECTOR\" definitionId=\"" ++ id ++ "\" definitionVersion=\""
    ++ version ++ "\" implementationId=\"" ++ id ++ "-impl\" implementationVersion=\""
    ++ implementation ++ "\"/>\n"

def dependency (id version file : String) : String :=
  "      <fragments key=\"" ++ id ++ "-impl -- " ++ version ++ "\" value=\"" ++ file
    ++ "\" type=\"CONNECTOR\"/>\n"

def dependencies (id version : String) (files : List String) : String :=
  "  <processDependencies id=\"CONNECTOR\">\n    <children id=\"" ++ id ++ "-impl-" ++ version
    ++ "\">\n" ++ String.join (files.map (dependency id version))
    ++ "    </children>\n  </processDependencies>\n"

def emailFiles : List String := ["bonita-connector-email-" ++ Defaults.emailVersion ++ ".jar", "javax.mail-1.6.2.jar",
  "javax.mail-api-1.6.2.jar"]

def callFiles : List String := ["bonita-connector-rest-" ++ Defaults.restVersion ++ ".jar"]

def localConfiguration (m : Model) (organization : Option Organization) : String := Text.dropBlankLines (
    "<?xml version=\"1.0\" encoding=\"UTF-8\"?>\n" ++ "<configuration:Configuration xmlns:configuration=\""
      ++ "http://www.bonitasoft.org/ns/bpm/configuration\" name=\"Local\" version=\"9\" username=\""
      ++ escapeMarks (firstUser organization) ++ "\">\n"
      ++ "  <actorMappings>\n"
      ++ String.join ((m.processes.flatMap Process.lanes).map laneMapping)
      ++ "  </actorMappings>\n"
      ++ definitionMapping "email" "1.2.0" Defaults.emailVersion
      ++ definitionMapping "rest-post" Defaults.restVersion Defaults.restVersion
      ++ dependencies "email" Defaults.emailVersion emailFiles
      ++ dependencies "rest-post" Defaults.restVersion callFiles
      ++ "  <processDependencies id=\"ACTOR_FILTER\"/>\n"
      ++ "  <processDependencies id=\"OTHER\"/>\n"
      ++ "</configuration:Configuration>\n")

end ProcessForge.Bonita
