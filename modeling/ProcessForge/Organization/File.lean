import ProcessForge.OrderedMap
import ProcessForge.Organization.Model
import ProcessForge.Xml.Build

/-! The organization as a document. Every actor is a user, every role a role, and every actor is a member
    of the one default group in each of its roles. Users and roles are sorted by name. -/

namespace ProcessForge.Organization

open Xml

def fileName : String := "Organization.xml"

def space : Namespace := ⟨some "organization", "http://documentation.bonitasoft.com/organization-xml-schema/1.1"⟩

/-- The one group that everybody is in. -/
def group : String := "Default"

/-- Names of the roles of each actor, in the order of the roles. -/
def memberships (o : Organization) : OrderedMap (List String) :=
  let join (role : String) (found : OrderedMap (List String)) (actor : Actor) : OrderedMap (List String) :=
    let roles := (found.value? actor.name).getD []
    found.put actor.name (if roles.contains role then roles else roles ++ [role])
  o.roles.foldl (fun found role => role.actors.foldl (join role.name) found) []

def sortNames (names : List String) : List String := names.mergeSort fun a b => !(b < a)

/-- An element in no namespace. -/
def part (stem : String) (attributes : List (String × String)) (content : List Node) : Node :=
  .element (tagOf (.plain stem) attributes) content

/-- An element that holds a text. -/
def labelled (stem text : String) : Node := part stem [] [.text text]

/-- A user with the usual password and no further data. -/
def user (name : String) : Node :=
  part "user" [("userName", name)] [part "personalData" [] [], part "professionalData" [] [],
    part "password" [("encrypted", "false")] [.text "bpm"],
    part "customUserInfoValues" [] []]

/-- What puts a user into the group in a role. -/
def membership (user role : String) : Node :=
  part "membership" [] [labelled "userName" user, labelled "roleName" role, labelled "groupName" group]

/-- What the document consists of. -/
def parts (o : Organization) : List Node :=
  let found := o.memberships
  let users := sortNames found.keys
  let roles := sortNames (o.roles.map Role.name)
  [part "customUserInfoDefinitions" [] [], part "users" [] (users.map user),
    part "roles" [] (roles.map fun name => part "role" [("name", name)] [labelled "displayName" name]),
    part "groups" [] [part "group" [("name", group)] [labelled "displayName" group]],
    part "memberships" [] (users.flatMap fun name =>
      ((found.value? name).getD []).map (membership name))]

/-- The text of the document. An organization without roles has none. -/
def toDocument (o : Organization) : Except Failure String :=
  if o.roles.isEmpty then .error .missingRoles
  else
    let tag : Tag := { name := ⟨some space, "Organization"⟩, declared := [space] }
    Element.write ⟨tag, o.parts⟩

end ProcessForge.Organization
