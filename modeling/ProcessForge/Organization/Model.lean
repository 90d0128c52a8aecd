/-! The organization: roles and the actors that take them. -/

namespace ProcessForge

structure Actor where
  id : String
  name : String := ""
  deriving DecidableEq, Repr, Inhabited

/-- A role and its actors. -/
structure Role where
  id : String
  name : String := ""
  actors : List Actor := []
  deriving DecidableEq, Repr, Inhabited

structure Organization where
  roles : List Role := []
  deriving DecidableEq, Repr, Inhabited

/-- All actors, role by role. -/
def Organization.actors (o : Organization) : List Actor := o.roles.flatMap Role.actors

end ProcessForge
