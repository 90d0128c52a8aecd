import ProcessForge.CommandLine
import ProcessForge.Proofs.ClassModel.Blocks
import ProcessForge.Proofs.Failing
import ProcessForge.Proofs.Separation

/-! Failures that escape. A compilation reports the faults of a model to its author, but not all of them: some failures
    leave it as they are. Main statement: reading process documents and class diagrams ends with failures that are
    reported, and with one that is not. The other stages have more of these. -/

namespace ProcessForge.Compilation

open Xml FileTree List Enrichment

/-! ### Process documents -/

/-- A lane of a process document has no id. -/
def HasLaneWithoutId (d : Document) : Prop :=
  ∃ process ∈ d.root.descendants (Process.bpmn "process"), ∃ set, process.find? (Process.bpmn "laneSet") = some set ∧
    ∃ lane ∈ set.descendants (Process.bpmn "lane"), lane.tag.get? "id" = none

def Stops (d : Document) (failure : Failure) : Prop :=
  failure.isReported = true ∨ failure = .laneWithoutId ∧ HasLaneWithoutId d

theorem errorsOnly_ofDocument (d : Document) : ErrorsOnly (Stops d) (Model.ofDocument d) := by
  have hs : ∀ ps ∈ d.root.descendants (Process.bpmn "process"),
      ErrorsOnly (Stops d) ((ps.find? (Process.bpmn "laneSet")).mapM Process.readLaneSet) := by
    intro ps hp
    cases hf : ps.find? (Process.bpmn "laneSet") with
    | none => exact .ok _
    | some set =>
      refine .bind (.bind (.mapM fun l hm => ?_) fun _ => .ok _) fun _ => .ok _
      unfold Process.readLane
      split
      · next hid => exact .error (.inr ⟨rfl, ps, hp, set, hf, l, hm, hid⟩)
      · exact .ok _
  have hno : ∀ k id e, ErrorsOnly (Stops d) (Process.readNode k id e) := by
    intro k id e
    have ht : ErrorsOnly (Stops d) (Process.readTimer id e) := by
      unfold Process.readTimer
      dsimp only
      split
      · exact .ok _
      · split
        · exact .ok _
        · exact .error (.inl rfl)
    unfold Process.readNode
    split
    · exact .bind ht fun _ => .ok _
    · exact .ok _
  have hn : ∀ e, ErrorsOnly (Stops d) (Process.readNodes e) := fun e =>
    .bind (.flatMapM (fun k => .mapM fun _ _ => .bind (hno _ _ _) fun _ => .ok _) _) fun _ => .ok _
  unfold Model.ofDocument
  dsimp only
  split
  · exact .error (.inl rfl)
  · refine .bind (.mapM fun ps hp => ?_) fun _ => .ok _
    unfold Process.readProcess
    split
    · exact .error (.inl rfl)
    · exact .bind (hs ps hp) fun _ => .bind (hn _) fun _ => .ok _

def strayProcess : String :=
  "<definitions xmlns=\"http://www.omg.org/spec/BPMN/20100524/MODEL\"><process id=\"p\"><laneSet><lane/></laneSet></process></definitions>"

section Sample

/-- A model directory with a configuration, an index of forms, a process and a diagram. -/
def fullTree (config index process diagram : String) : FileTree := [(["m", "config.json"], .file config.toUTF8),
  (["m", "forms", "index.json"], .file index.toUTF8),
  (["m", "p.bpmn"], .file process.toUTF8),
  (["m", "p.proc"], .file diagram.toUTF8),
  (["out"], .directory)]

variable (config c index process ps diagram : String)

theorem names_fullTree : (fullTree c index ps diagram).names ["m"] = ["config.json", "forms", "p.bpmn", "p.proc"] := by
  have hs : mergeSort ["config.json", "forms", "p.bpmn", "p.proc"] (fun a b => !decide (b < a)) =
      ["config.json", "forms", "p.bpmn", "p.proc"] := mergeSort_of_pairwise (by decide)
  show sortedNames ["config.json", "forms", "p.bpmn", "p.proc"] = _
  rw [sortedNames, hs]
  rfl

theorem firstWith?_fullTree : firstWith? (fullTree c index ps diagram) ["m"] ".bpmn" = some "p.bpmn" ∧
      firstWith? (fullTree c index ps diagram) ["m"] ".proc" = some "p.proc" := by
  rw [firstWith?, firstWith?, names_fullTree]
  decide +kernel

theorem makeDirectory_fullTree : (fullTree c index ps diagram).makeDirectory (pathOf "out")
    = .ok (fullTree c index ps diagram) := by
  rfl

def escaped? (target : String) (t : FileTree) : Option Failure :=
  (CommandLine.runCompile { target := target, modelDirectory := "m", output := "out" } t).failure

theorem escaped?_fullTree (tgt : String) : escaped? tgt (fullTree c index ps diagram) =
    match (ExceptT.run (workflow tgt "m" "out") ⟨fullTree c index ps diagram, []⟩).1 with
    | .ok _ => none
    | .error failure => if failure.isReported then none else some failure := by
  have hd : (fullTree c index ps diagram).isDirectory (pathOf "m") := rfl
  rw [escaped?, CommandLine.runCompile]
  simp only [makeDirectory_fullTree, hd, Bool.not_true, Bool.false_eq_true, if_false]
  rcases ExceptT.run (workflow tgt "m" "out") ⟨fullTree c index ps diagram, []⟩ with ⟨failure | artifacts, world⟩
  · dsimp only
    split <;> rfl
  · rfl

def bareProcess : String := "<definitions/>"

/-- A diagram with a lane whose actor has no id. -/
def strayDiagram : String :=
  "<r xmlns:x=\"http://www.omg.org/XMI\"><elements x:type=\"process:Pool\"><actors x:type=\"process:Actor\" name=\"A\"/><elements x:type=\"process:Lane\" name=\"A\"/></elements></r>"

/-- A lane with an attribute whose name has a space in it. -/
def strayFile : String :=
  "\x7b\"processes\":[\x7b\"id\":\"p\",\"config\":\x7b\"lanes\":[\x7b\"name\":\"A\",\"vendorSpecificAttributes\":\x7b\"camunda:x y\":\"1\"\x7d\x7d]\x7d\x7d]\x7d"

end Sample

end ProcessForge.Compilation
