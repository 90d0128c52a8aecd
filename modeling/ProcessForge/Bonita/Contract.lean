import ProcessForge.Bonita.Expression
import ProcessForge.ClassModel.Contract
import ProcessForge.Process.Model

/-! Contracts of user tasks that write a business object, and the operations that store what was
    submitted. -/

namespace ProcessForge.Bonita

open Xml

mutual

def inputDraft : ContractInput → Draft
  | .input name type object inputs =>
    piece "inputs" "process:ContractInput" [("name", some name), ("type", if type == "TEXT" then none else some type),
      ("createMode", some "false"), ("dataReference", object.filter (· != ""))] (inputDrafts inputs)

def inputDrafts : List ContractInput → List Draft
  | [] => []
  | input :: rest => inputDraft input :: inputDrafts rest

end

def operationDraft (typeId rootClass : String) (op : FieldOperation) : Draft :=
  let ref := objectRef op.variableName (some typeId) (some rootClass)
  let input := piece "referencedElements" "process:ContractInput" [
    ("name", some op.inputName), ("type", some "COMPLEX"), ("createMode", some "false")] []
  let nested := if op.composedType.any (· != "") then [ref, ref] else []
  piece "operations" "expression:Operation" [] [
    piece "leftOperand" "expression:Expression" [("name", some op.variableName), ("content", some op.variableName),
      ("type", some "TYPE_VARIABLE"), ("returnType", some rootClass)] [ref],
    piece "rightOperand" "expression:Expression" [
      ("name", some (op.inputName ++ "." ++ op.fieldName)), ("interpreter", some "GROOVY"),
      ("type", some "TYPE_READ_ONLY_SCRIPT"), ("content", some op.content),
      ("returnType", op.returnType)] (input :: nested),
    operator op.fieldName op.inputType]

def contractEdits (contract : Contract) (className typeId : String) : List Edit :=
  let operations := contract.operations.map (operationDraft typeId (Defaults.modelClass className))
  [.ensure (piece "contract" "process:Contract" [] []),
    .within (.plain "contract") [.setMissing kindLabel "process:Contract", .clearAll,
      .append (inputDraft contract.root)],
    .clear (.plain "operations")]
    ++ operations.map fun operation => .place operation anchors

/-- Contract of the business object that a user task writes, and the class of the object. -/
def taskContract? (classes : ClassModel) (p : Process) (n : FlowNode) :
    Option (Contract × String) := do
  let object ← p.writtenObject? n
  let className := Text.trim (object.typeName.getD "")
  let contract ← classes.contract? (Text.trim (object.variableName.getD "")) className
  return (contract, className)

def planContracts (classes : ClassModel) (m : Model) (d : Document) : Planning Unit := do
  let tasks := elementsByName d (some userTaskKinds)
  match businessTypeId? d with
  | none => return
  | some typeId =>
    m.processes.forM fun p => (p.nodesOf .userTask).forM fun n =>
      match tasks.value? (nameKey n.name), taskContract? classes p n with
      | some place, some (contract, className) =>
        Planning.edit place (contractEdits contract className typeId)
      | _, _ => return

end ProcessForge.Bonita
