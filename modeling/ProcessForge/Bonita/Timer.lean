import ProcessForge.Bonita.Diagram
import ProcessForge.Duration
import ProcessForge.Process.Model

/-! Conditions of timers: the duration of an event of the model in milliseconds. -/

namespace ProcessForge.Bonita

open Xml

/-- Durations by the names of their events; the last one of a name counts. -/
def timerDurations (m : Model) : OrderedMap String :=
  OrderedMap.ofList (m.allNodes.filterMap fun n =>
    match n.timer, n.name with
    | some timer, some name =>
      if timer.isEmpty || name.isEmpty then none else some (nameKey (some name), timer)
    | _, _ => none)

def isTimer (tag : Tag) : Bool := Text.contains (kindOf tag) "TimerEvent"

def timerCondition (millis : Nat) : Draft :=
  piece "condition" "expression:Expression" [
    ("name", some (Duration.clock millis)), ("content", some (toString millis ++ "L")),
    ("interpreter", some "GROOVY"), ("type", some "TYPE_READ_ONLY_SCRIPT"),
    ("returnType", some "java.lang.Long")] []

def planTimers (m : Model) (d : Document) : Planning Unit := do
  let durations := timerDurations m
  d.root.places.forM fun place => do
    let tag := place.element.tag
    match durations.value? (nameKey (tag.get? "name")) with
    | none => return
    | some duration =>
      if isTimer tag then
        let millis ← Work.ofExcept (Duration.millisOf (some duration))
        Planning.edit place [.clear (.plain "condition"), .append (timerCondition millis)]

end ProcessForge.Bonita
