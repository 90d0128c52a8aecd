/-! Decision tables. Rules are tried in order, and the first one whose entries all hold decides. -/

namespace ProcessForge.Decision

/-- A column that is tested. -/
structure Input where
  expression : String := ""
  type : Option String := none
  deriving DecidableEq, Repr, Inhabited

/-- The column of results. -/
structure Output where
  name : Option String := none
  type : Option String := none
  deriving DecidableEq, Repr, Inhabited

/-- A row: one entry for each tested column, and the result. Entries may be missing at the end. -/
structure Rule where
  entries : List String := []
  result : Option String := none
  deriving DecidableEq, Repr, Inhabited

/-- A decision table. -/
structure Table where
  decision : Option String := none
  inputs : List Input := []
  output : Option Output := none
  rules : List Rule := []
  deriving DecidableEq, Repr, Inhabited

end ProcessForge.Decision
