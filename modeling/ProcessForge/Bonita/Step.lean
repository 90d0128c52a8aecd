import ProcessForge.Bonita.Actor
import ProcessForge.Bonita.Contract
import ProcessForge.Bonita.Data
import ProcessForge.Bonita.Flow
import ProcessForge.Bonita.Form
import ProcessForge.Bonita.Fragment
import ProcessForge.Bonita.Id
import ProcessForge.Bonita.Rule
import ProcessForge.Bonita.Service
import ProcessForge.Bonita.Timer
import ProcessForge.Xml.Printer

/-! The steps in which a model is written to the skeleton of a diagram. Every step removes what it wrote
    before, so that a diagram can be written again. -/

namespace ProcessForge.Bonita

open Xml

/-- Everything that is written to a diagram. -/
structure Content where
  model : Model
  classes : ClassModel := {}
  config : Configuration := {}
  decisions : OrderedMap String := []
  services : ServiceFiles := {}
  formIndex : Json := .null
  deriving Inhabited

inductive Step where
  | actors
  | links
  | initiator
  | data
  | timers
  | flows
  | contracts
  | forms
  | connectors
  | fragments
  | decisions
  | sendTasks
  deriving DecidableEq, Repr, Inhabited

def Step.all : List Step := [
  .actors, .links, .initiator, .data, .timers, .flows, .contracts, .forms, .connectors, .fragments,
  .decisions, .sendTasks]

/-- A diagram in work and its actors, once they are known. -/
structure Desk where
  bench : Bench
  actors : Actors := []
  deriving Inhabited

def onBench {α : Type} (work : BenchWork α) : WorkOn Desk α := fun desk =>
  let (result, bench) := work.run desk.bench
  (result, { desk with bench := bench })

def Step.run (content : Content) : Step → WorkOn Desk Unit
  | .actors => do
    let actors ← onBench (Bench.round planActors)
    modify fun desk => { desk with actors := actors }
  | .links => do
    let desk ← get
    onBench (Bench.round (planLinks desk.actors))
  | .initiator => onBench (Bench.round (planInitiator content.model))
  | .data => onBench (Bench.round (planData content.model))
  | .timers => onBench (Bench.round (planTimers content.model))
  | .flows => onBench (Bench.round (planFlows content.model))
  | .contracts => onBench (Bench.round (planContracts content.classes content.model))
  | .forms => onBench (Bench.round (planForms content.config content.formIndex))
  | .connectors => onBench (Bench.round (planConnectors content.config content.services))
  | .fragments => onBench (Bench.round (planFragments content.model))
  | .decisions => onBench (Bench.round (planDecisions content.decisions content.model))
  | .sendTasks => onBench (Bench.round planSendTasks)

def Desk.ofSkeleton (skeleton : Document) (notices : List Notice) : Desk :=
  let document := Document.ensureNamespaces { skeleton with coined := 0 } spaces
  { bench := { document := document, nextId := firstNewId skeleton, notices := notices } }

def generate (content : Content) (skeleton : Document) : Work Document := fun notices =>
  let steps := Step.all.forM (Step.run content)
  let (result, desk) := steps.run (Desk.ofSkeleton skeleton notices)
  (result.map fun _ => desk.bench.document, desk.bench.notices)

/-- The text of a diagram. New ids are those from `first` on. -/
def diagramText (first : Nat) (d : Document) : String := renumber first (d.ensureNamespaces spaces).render

end ProcessForge.Bonita
