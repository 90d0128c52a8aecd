import ProcessForge.Bonita.Diagram
import ProcessForge.Process.Model

/-! Actors of a diagram: one for every name of a lane. The actor of the first lane with a start event
    may start the process. -/

namespace ProcessForge.Bonita

open Xml

/-- Ids of actors by the names of their lanes; an actor of the skeleton may be without one. -/
abbrev Actors := OrderedMap (Option String)

/-- Actors that a pool already has; the last one of a name counts. -/
def existingActors (pool : Element) : Actors :=
  OrderedMap.ofList ((pool.findAll (.plain "actors")).filterMap fun actor =>
    if kindOf actor.tag == "process:Actor" then
      ((actor.tag.get? "name").filter (· != "")).map fun name => (name, actor.tag.value? idLabel)
    else none)

def lanePlaces (d : Document) : List Place :=
  (placesOf d "elements").filter fun place => kindOf place.element.tag == "process:Lane"

def actorDraft (id name : String) : Draft := .element (.plain "actors")
    [(kindLabel, .text "process:Actor"), (idLabel, .text id), (.plain "name", .text name)] []

def addActor (pool : Place) (existing actors : Actors) (lane : Place) : Planning Actors := do
  match lane.element.tag.get? "name" with
  | none | some "" => return actors
  | some name =>
    if actors.has name then return actors
    match existing.value? name with
    | some id => return actors.put name id
    | none =>
      let id ← Planning.freshId
      Planning.edit pool [.append (actorDraft id name)]
      return actors.put name (some id)

def planActors (d : Document) : Planning Actors :=
  match pool? d with
  | none => throw .missingPool
  | some pool => (lanePlaces d).foldlM (addActor pool (existingActors pool.element)) []

def planLinks (actors : Actors) (d : Document) : Planning Unit :=
  (lanePlaces d).forM fun lane =>
    match (lane.element.tag.get? "name").bind actors.value? with
    | none => return
    | some none => throw .missingActorId
    | some (some id) => Planning.edit lane [.set (.plain "actor") id]

/-- The actor of the first lane with a start event, if the diagram links that lane. -/
def initiator? (m : Model) (d : Document) : Option String :=
  let lanes := elementsByName d (some ["process:Lane"])
  m.processes.findSome? fun p => do
    let lane ← p.initiatorLane?
    let place ← lanes.value? (nameKey lane.name)
    (place.element.tag.get? "actor").filter (· != "")

def planInitiator (m : Model) (d : Document) : Planning Unit :=
  let found := (initiator? m d).bind fun id =>
    (placesOf d "actors").find? fun place =>
      kindOf place.element.tag == "process:Actor" && place.element.tag.value? idLabel == some id
  match found with
  | some place => Planning.edit place [.set (.plain "initiator") "true"]
  | none => return

end ProcessForge.Bonita
