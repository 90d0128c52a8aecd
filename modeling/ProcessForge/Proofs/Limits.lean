import ProcessForge.Proofs.Json.Substitution
import ProcessForge.Proofs.Separation

/-! Limits of what can be read. A value that is nested too deeply ends a run when its stack is used up, half a pair of
    code units can be read but not written, and a machine may know more encodings than the reader of documents. Model
    directories that stay away from all this are modest; what follows for them does not depend on the machine. -/

namespace ProcessForge.Compilation

open Xml FileTree List Enrichment

/-- How deep the brackets of a text are nested, those in its strings aside. -/
def nesting : Bool → Nat → List Char → Nat
  | _, depth, [] => depth
  | true, depth, '\\' :: _ :: rest => nesting true depth rest
  | inString, depth, '"' :: rest => nesting (!inString) depth rest
  | true, depth, _ :: rest => nesting true depth rest
  | false, depth, c :: rest =>
    if c == '[' || c == '\x7b' then nesting false (depth + 1) rest
    else if c == ']' || c == '\x7d' then max depth (nesting false (depth - 1) rest)
    else nesting false depth rest

/-- A text that a run reads as JSON: the configuration, the index of forms, or a descriptor with the global variables
    put in. -/
inductive IsJson (t : FileTree) (directory : List String) : String → Prop
  | file {path : List String} {s : String} (mem : path ∈ [["config.json"], ["forms", "index.json"]])
      (text : t.text (directory ++ path) = .ok s) : IsJson t directory s
  | descriptor {folder s : String} {config : Configuration} {texts : OrderedMap String}
      (mem : folder ∈ ["rest", "email"])
      (settings : (readConfiguration t directory).run.1 = .ok config)
      (files : readTexts t (directory ++ [folder]) ".json" = .ok texts)
      (text : s ∈ (substituteInFiles config.globals texts).values) : IsJson t directory s

/-- A value that a run can come to, with how deep it is: a text that is read, what it holds, and what is in that. -/
inductive IsMet (t : FileTree) (directory : List String) : Nat → Json → Prop
  | text {s : String} (json : IsJson t directory s) : IsMet t directory 0 (.str s)
  | parsed {n : Nat} {s : String} {v : Json} (met : IsMet t directory n (.str s)) (value : Json.parse s = .ok v) :
      IsMet t directory n v
  | item {n : Nat} {v : Json} {items : List Json} (met : IsMet t directory n (.arr items)) (mem : v ∈ items) :
      IsMet t directory (n + 1) v
  | member {n : Nat} {name : String} {v : Json} {members : OrderedMap Json} (met : IsMet t directory n (.obj members))
      (mem : (name, v) ∈ members) : IsMet t directory (n + 1) v

/-- If a document names its encoding, the reader knows it. -/
def HasKnownEncoding (cs : List Char) : Prop := ∀ declaration rest name,
  readDeclaration cs = some (declaration, rest) → declaration.encoding = some name →
    (Encoding.ofName? name).isSome = true

/-- A model directory that stays within the limits. -/
structure IsModest (t : FileTree) (directory : List String) : Prop where
  texts : ∀ n s, IsMet t directory n (.str s) →
    n + nesting false 0 s.toList ≤ 100 ∧ '�' ∉ Json.escapedChars s.toList
  classes : ∀ s model, t.text (directory ++ ["class-model.puml"]) = .ok s → ClassModel.ofDiagram s = .ok model →
    model.classes.length ≤ 100
  encodings : ∀ text, IsDecision t directory text → HasKnownEncoding text.toList ∧
    ∀ bytes, t.opened? text = some bytes → HasKnownEncoding (bytes.toList.map fun b => Char.ofNat b.toNat)

/-! ### Directories far from the limits -/

variable {t : FileTree} {dir : List String}

/-- A directory without values to read and without decisions is modest. -/
theorem isModest_of_plain
    (hc : ∀ path ∈ [["config.json"], ["forms", "index.json"], ["class-model.puml"]], t.bytes? (dir ++ path) = none)
    (hd : ∀ x ∈ [("rest", ".json"), ("email", ".json"), ("dmn", ".dmn")], readTexts t (dir ++ [x.1]) x.2 = .ok []) :
    IsModest t dir := by
  have ht : ∀ path ∈ [["config.json"], ["forms", "index.json"], ["class-model.puml"]], ∀ s,
      t.text (dir ++ path) ≠ .ok s := by
    intro path hp s hs
    rw [FileTree.text, hc path hp] at hs
    cases hs
  have hm : ∀ n v, ¬ IsMet t dir n v := by
    intro n v h
    induction h with
    | text json =>
      cases json with
      | file mem text => exact ht _ (mem_append_left [["class-model.puml"]] mem) _ text
      | @descriptor folder _ _ texts mem _ files text =>
        have hn : readTexts t (dir ++ [folder]) ".json" = .ok [] := by
          simp only [mem_cons, not_mem_nil, or_false] at mem
          rcases mem with rfl | rfl
          · exact hd ("rest", ".json") (by decide)
          · exact hd ("email", ".json") (by decide)
        obtain rfl := Except.ok.inj (hn.symm.trans files)
        cases text
    | parsed _ _ ih => exact ih
    | item _ _ ih => exact ih
    | member _ _ ih => exact ih
  refine ⟨fun n s h => absurd h (hm n _), fun s model h => absurd h (ht _ (by decide) s), fun text h => ?_⟩
  obtain ⟨c, texts, -, hr, h⟩ := h
  obtain rfl := Except.ok.inj ((hd ("dmn", ".dmn") (by decide)).symm.trans hr)
  cases h

end ProcessForge.Compilation
