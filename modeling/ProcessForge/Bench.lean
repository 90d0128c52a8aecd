import ProcessForge.Work
import ProcessForge.Xml.Job

/-! The bench on which a document is changed in rounds. A round is planned on the document as it is: its
    plan collects jobs and reports, and may stop. The jobs collected up to then are done in any case. -/

namespace ProcessForge

open Xml

/-- Jobs and reports of a round, and the number of the next new id. -/
structure Plan where
  nextId : Nat := 1
  jobs : List Job := []
  notices : List Notice := []
  deriving Inhabited

abbrev Planning (α : Type) := WorkOn Plan α

namespace Planning

def note (notice : Notice) : Planning Unit := modify fun plan => { plan with notices := plan.notices ++ [notice] }

def freshId : Planning String := do
  let plan ← get
  set { plan with nextId := plan.nextId + 1 }
  return madeUpId plan.nextId

/-- Plans edits of an element. Edits that XML forbids stop the round; what comes before them counts. -/
def edit (place : Place) (edits : List Edit) : Planning Unit := do
  let (edits, whole) := cutEdits edits
  modify fun plan => { plan with jobs := plan.jobs ++ [⟨place.path, edits⟩] }
  if !whole then throw .forbiddenText

end Planning

/-- A document in work with the number of the next new id and the reports so far. -/
structure Bench where
  document : Document
  nextId : Nat := 1
  notices : List Notice := []
  deriving Inhabited

abbrev BenchWork (α : Type) := WorkOn Bench α

namespace Bench

def round {α : Type} (plan : Document → Planning α) : BenchWork α := fun bench =>
  let (result, plan) := (plan bench.document).run { nextId := bench.nextId }
  let (document, nextId) := bench.document.perform plan.nextId plan.jobs
  (result, { document := document, nextId := nextId, notices := bench.notices ++ plan.notices })

end Bench

end ProcessForge
