import Mathlib.Data.List.Nodup
import Mathlib.Data.List.Perm.Subperm
import ProcessForge.ClassModel.Contract

/-! The input tree of a contract against the graph of the class model. A branch of the graph is a row of
    fields: the first one belongs to the class it starts at, every further one to the class that is the
    type of the field before, and no class is passed twice. Main statement: the positions of the tree are
    exactly the positions of branches, each of one branch only, and the input at a position is that of
    the last field. Cycles of the graph make no exception: they only end branches. -/

namespace ProcessForge

open List Option

/-- The input at a position, which has the number of an input for every level. -/
def ContractInput.at? : List ContractInput → List Nat → Option ContractInput
  | _, [] => none
  | level, [i] => level[i]?
  | level, i :: rest => level[i]?.bind fun input => at? input.inputs rest

namespace ClassModel

def classOf (f : ClassField) : String := f.type.getD ""

/-- Classes that a row of fields passes: the one it starts at, and the types of all fields but the last. -/
def passed (start : String) (fields : List ClassField) : List String := start :: fields.dropLast.map classOf

/-- A row of fields that follows the model and passes no class twice, with the number of every field
    among the named fields of its class. -/
structure IsBranch (m : ClassModel) (start : String) (position : List Nat)
    (fields : List ClassField) : Prop where
  nonempty : fields ≠ []
  aligned : position.length = fields.length
  isField : ∀ (k i : Nat) (c : String), position[k]? = some i → (passed start fields)[k]? = some c →
    (m.namedFields c)[i]? = fields[k]?
  isClass : ∀ f ∈ fields.dropLast, m.isClass f.type = true
  distinct : (passed start fields).Nodup

/-- An input has the name of a field, and it is complex just for classes. -/
def IsInputOf (m : ClassModel) (input : ContractInput) (f : ClassField) : Prop :=
  input.name = Text.trim f.name ∧ (input.type = "COMPLEX" ↔ m.isClass f.type = true)

variable {m : ClassModel}

/-! ### Branches, field by field -/

theorem passed_cons (start : String) (f g : ClassField) (tl : List ClassField) :
    passed start (f :: g :: tl) = start :: passed (classOf f) (g :: tl) := rfl

variable {start name : String} {i : Nat} {f : ClassField} {p : List Nat} {visited : List String}

theorem isBranch_singleton : m.IsBranch start [i] [f] ↔ (m.namedFields start)[i]? = some f := by
  constructor
  · intro h
    simpa using h.isField 0 i start rfl rfl
  · intro h
    refine ⟨by simp, rfl, ?_, by simp, by simp [passed]⟩
    intro k j c hk hc
    cases k with
    | zero => simp_all [passed]
    | succ k => simp at hk

/-- A longer branch goes on from the class of its first field, and does not come back. -/
theorem isBranch_cons {g : ClassField} {tl : List ClassField} :
    m.IsBranch start (i :: p) (f :: g :: tl) ↔ (m.namedFields start)[i]? = some f ∧ m.isClass f.type ∧
      m.IsBranch (classOf f) p (g :: tl) ∧ start ∉ passed (classOf f) (g :: tl) := by
  constructor
  · intro h
    have hd := h.distinct
    rw [passed_cons, nodup_cons] at hd
    refine ⟨by simpa using h.isField 0 i start rfl rfl, h.isClass f (by simp), ?_, hd.1⟩
    refine ⟨by simp, by simpa using h.aligned, ?_, ?_, hd.2⟩
    · intro k j c hk hc
      simpa using h.isField (k + 1) j c (by simpa using hk) (by simpa [passed_cons] using hc)
    · intro e he
      exact h.isClass e (by simp [he])
  · rintro ⟨hf, hcl, hb, hs⟩
    refine ⟨by simp, by simpa using hb.aligned, ?_, ?_, ?_⟩
    · intro k j c hk hc
      cases k with
      | zero => simp_all [passed]
      | succ k =>
        simpa using hb.isField k j c (by simpa using hk) (by simpa [passed_cons] using hc)
    · intro e he
      rw [dropLast_cons_of_ne_nil (by simp), mem_cons] at he
      rcases he with rfl | he
      · exact hcl
      · exact hb.isClass e he
    · rw [passed_cons, nodup_cons]
      exact ⟨hs, hb.distinct⟩

theorem IsBranch.unique : ∀ {p : List Nat} {start : String} {fs gs : List ClassField},
    m.IsBranch start p fs → m.IsBranch start p gs → fs = gs
  | [], _, fs, _, hf, _ => absurd (length_eq_zero_iff.mp hf.aligned.symm) hf.nonempty
  | [i], start, fs, gs, hf, hg => by
    obtain ⟨f, rfl⟩ := length_eq_one_iff.mp hf.aligned.symm
    obtain ⟨g, rfl⟩ := length_eq_one_iff.mp hg.aligned.symm
    rw [isBranch_singleton] at hf hg
    rw [hf] at hg
    simpa using hg
  | i :: j :: p, start, fs, gs, hf, hg => by
    match fs, gs, hf.aligned, hg.aligned with
    | f :: f' :: fs, g :: g' :: gs, _, _ =>
      obtain ⟨hfi, _, hfb, _⟩ := isBranch_cons.mp hf
      obtain ⟨hgi, _, hgb, _⟩ := isBranch_cons.mp hg
      rw [hfi, some.injEq] at hgi
      subst hgi
      rw [IsBranch.unique hfb hgb]

/-! ### One level of the tree -/

def inputFor (m : ClassModel) (above : List String) (f : ClassField) : ContractInput :=
  if m.isClass f.type then
    .input (Text.trim f.name) "COMPLEX" none (m.inputsBelow above (classOf f))
  else .input (Text.trim f.name) (m.contractType f.type) none []

theorem inputsBelow_of_mem (h : name ∈ visited) : m.inputsBelow visited name = [] := by
  rw [inputsBelow, dif_pos h]

theorem inputsBelow_of_not_mem (h : name ∉ visited) :
    m.inputsBelow visited name = (m.namedFields name).map (m.inputFor (name :: visited)) := by
  rw [inputsBelow, dif_neg h]
  exact attach_map_val (f := m.inputFor (name :: visited))

theorem contractType_ne_complex (type : Option String) : m.contractType type ≠ "COMPLEX" := by
  unfold contractType
  split
  · unfold contractTypeOf
    split <;> decide
  · decide

theorem inputFor_isInputOf (above : List String) (f : ClassField) : m.IsInputOf (m.inputFor above f) f := by
  unfold inputFor
  by_cases hc : m.isClass f.type
  · rw [if_pos hc]
    exact ⟨rfl, fun _ => hc, fun _ => rfl⟩
  · rw [if_neg hc]
    exact ⟨rfl, fun h => absurd h (contractType_ne_complex f.type), fun h => absurd h hc⟩

/-- What stands below the input of a field: the inputs of its class, none if it has no class. -/
theorem inputFor_inputs (above : List String) (f : ClassField) : (m.inputFor above f).inputs =
      if m.isClass f.type then m.inputsBelow above (classOf f) else [] := by
  unfold inputFor
  split <;> rfl

theorem at?_cons (l : List ContractInput) (i j : Nat) (tl : List Nat) : ContractInput.at? l (i :: j :: tl) =
      l[i]?.bind fun inp => ContractInput.at? inp.inputs (j :: tl) := rfl

theorem at?_nil : ∀ p : List Nat, ContractInput.at? [] p = none
  | [] => rfl
  | [_] => rfl
  | _ :: _ :: _ => rfl

/-! ### The whole tree -/

/-- Every position of the tree is that of a branch which stays off the visited classes. The induction is
    on the position, so that it does not matter how the recursion of the tree ends. -/
theorem isBranch_of_at? : ∀ {p : List Nat} {visited : List String} {name : String} {inp : ContractInput},
    ContractInput.at? (m.inputsBelow visited name) p = some inp →
    ∃ fs, m.IsBranch name p fs ∧ (∀ c ∈ passed name fs, c ∉ visited) ∧ ∃ f, fs.getLast? = some f ∧ m.IsInputOf inp f
  | [], _, _, _, h => by simp [ContractInput.at?] at h
  | [i], visited, name, inp, h => by
    by_cases hv : name ∈ visited
    · rw [inputsBelow_of_mem hv] at h
      cases h
    · rw [inputsBelow_of_not_mem hv, ContractInput.at?, getElem?_map] at h
      obtain ⟨f, hf, rfl⟩ := map_eq_some_iff.mp h
      exact ⟨[f], isBranch_singleton.mpr hf, by simpa [passed] using hv, f, rfl, inputFor_isInputOf _ f⟩
  | i :: j :: p, visited, name, inp, h => by
    by_cases hv : name ∈ visited
    · rw [inputsBelow_of_mem hv] at h
      cases h
    · rw [inputsBelow_of_not_mem hv, at?_cons, getElem?_map] at h
      obtain ⟨_, hn, hbe⟩ := bind_eq_some_iff.mp h
      obtain ⟨f, hf, rfl⟩ := map_eq_some_iff.mp hn
      rw [inputFor_inputs] at hbe
      by_cases hc : m.isClass f.type
      · rw [if_pos hc] at hbe
        obtain ⟨fs, hb, ho, g, hl, hg⟩ := isBranch_of_at? hbe
        obtain ⟨f', tl, rfl⟩ := exists_cons_of_ne_nil hb.nonempty
        refine ⟨f :: f' :: tl, isBranch_cons.mpr ⟨hf, hc, hb, ?_⟩, ?_, g, ?_, hg⟩
        · intro hm
          exact ho name hm (mem_cons_self ..)
        · intro c hm
          rw [passed_cons, mem_cons] at hm
          rcases hm with rfl | hm
          · exact hv
          · exact fun hcv => ho c hm (mem_cons_of_mem _ hcv)
        · exact hl
      · rw [if_neg hc, at?_nil] at hbe
        cases hbe

theorem at?_of_isBranch : ∀ {p : List Nat} {visited : List String} {name : String}
    {fs : List ClassField}, m.IsBranch name p fs →
    (∀ c ∈ passed name fs, c ∉ visited) →
    ∃ inp, ContractInput.at? (m.inputsBelow visited name) p = some inp
  | [], _, _, _, hb, _ => absurd (length_eq_zero_iff.mp hb.aligned.symm) hb.nonempty
  | [i], visited, name, fs, hb, ho => by
    obtain ⟨f, rfl⟩ := length_eq_one_iff.mp hb.aligned.symm
    have hv : name ∉ visited := ho name (mem_cons_self ..)
    rw [inputsBelow_of_not_mem hv, ContractInput.at?, getElem?_map, isBranch_singleton.mp hb]
    exact ⟨_, rfl⟩
  | i :: j :: p, visited, name, fs, hb, ho => by
    match fs, hb.aligned with
    | f :: g :: tl, _ =>
      obtain ⟨hf, hc, hr, hs⟩ := isBranch_cons.mp hb
      have hv : name ∉ visited := ho name (mem_cons_self ..)
      have ho' : ∀ c ∈ passed (classOf f) (g :: tl), c ∉ name :: visited := by
        intro c hm hcv
        rcases mem_cons.mp hcv with rfl | hcv
        · exact hs hm
        · exact ho c (by exact mem_cons_of_mem _ hm) hcv
      obtain ⟨inp, hi⟩ := at?_of_isBranch hr ho'
      refine ⟨inp, ?_⟩
      rw [inputsBelow_of_not_mem hv, at?_cons, getElem?_map, hf]
      simpa [inputFor_inputs, hc] using hi

/-- A branch is not longer than the model has classes, since it passes as many as it has fields. -/
theorem IsBranch.length_le {fs : List ClassField} (h : m.IsBranch start p fs) : p.length ≤ m.classes.length := by
  have hl : (passed start fs).length = p.length := by
    have := length_pos_iff.mpr h.nonempty
    rw [h.aligned, passed]
    simp only [length_cons, length_map, length_dropLast]
    omega
  have hke : passed start fs ⊆ m.classes.keys := by
    intro c hc
    obtain ⟨k, hk, rfl⟩ := getElem_of_mem hc
    have hp : k < p.length := hl ▸ hk
    have hfi := h.isField k p[k] _ (getElem?_eq_getElem hp) (getElem?_eq_getElem hk)
    have hf : k < fs.length := h.aligned ▸ hp
    rw [getElem?_eq_getElem hf] at hfi
    exact mem_keys_of_mem_namedFields (mem_of_getElem? hfi)
  calc p.length = (passed start fs).length := hl.symm
    _ ≤ m.classes.keys.length := (subperm_of_subset h.distinct hke).length_le
    _ = m.classes.length := by simp [OrderedMap.keys]

/-- The input tree of a class is its unfolding without repetitions. The tree has an input at a position
    just if the position is that of a branch, and then of one branch only; this input is named after the
    last field and is complex just if the type of that field is a class; and no position is deeper than
    the number of classes. -/
theorem contractInputs_unfolding (m : ClassModel) (start : String) (position : List Nat) :
    ((ContractInput.at? (m.contractInputs start) position).isSome = true ↔
      ∃! fields, m.IsBranch start position fields) ∧
    (∀ input, ContractInput.at? (m.contractInputs start) position = some input →
      (∃ fields f, m.IsBranch start position fields ∧ fields.getLast? = some f ∧ m.IsInputOf input f) ∧
      position.length ≤ m.classes.length) := by
  constructor
  · constructor
    · intro h
      obtain ⟨input, hi⟩ := isSome_iff_exists.mp h
      obtain ⟨fields, hb, _⟩ := isBranch_of_at? hi
      exact ⟨fields, hb, fun other ho => ho.unique hb⟩
    · rintro ⟨fields, hb, _⟩
      obtain ⟨input, hi⟩ := at?_of_isBranch hb fun c _ => not_mem_nil
      rw [contractInputs, hi]
      rfl
  · intro input hi
    obtain ⟨fields, hb, _, f, hlast, hf⟩ := isBranch_of_at? hi
    exact ⟨⟨fields, f, hb, hlast, hf⟩, hb.length_le⟩

end ClassModel

end ProcessForge
