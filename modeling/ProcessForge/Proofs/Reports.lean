import ProcessForge.Proofs.Planning

/-! Two runs of the same work. Reports are only made and never looked at, so work that starts with other reports has
    the same outcome. Steps are put together from few operations, and each of them keeps this. -/

namespace ProcessForge

open Xml

/-! ### Two runs from related states -/

variable {σ α β : Type} {same : σ → σ → Prop}

/-- From related states the work has the same outcome and leaves related states. -/
def Respects (same : σ → σ → Prop) (x : WorkOn σ α) : Prop :=
  ∀ s s', same s s' → (x.run s).1 = (x.run s').1 ∧ same (x.run s).2 (x.run s').2

namespace Respects

theorem pure (a : α) : Respects same (Pure.pure a : WorkOn σ α) := fun _ _ h => ⟨rfl, h⟩

theorem throw (f : Failure) : Respects same (MonadExcept.throw f : WorkOn σ α) := fun _ _ h => ⟨rfl, h⟩

theorem ofExcept (r : Except Failure α) : Respects same (Work.ofExcept r : WorkOn σ α) := by
  cases r with
  | ok a => exact pure a
  | error f => exact throw f

theorem modify {g : σ → σ} (h : ∀ s s', same s s' → same (g s) (g s')) :
    Respects same (modify g : WorkOn σ Unit) := fun s s' hsame => ⟨rfl, h s s' hsame⟩

theorem bind {x : WorkOn σ α} {f : α → WorkOn σ β} (hx : Respects same x) (hf : ∀ a, Respects same (f a)) :
    Respects same (x >>= f) := by
  intro s s' hsame
  obtain ⟨hr, hs⟩ := hx s s' hsame
  rw [run_bind, run_bind, ← hr]
  cases (x.run s).1 with
  | error fl => exact ⟨rfl, hs⟩
  | ok a => exact hf a _ _ hs

theorem get_bind {f : σ → WorkOn σ β} (heq : ∀ s s', same s s' → f s = f s') (hf : ∀ s, Respects same (f s)) :
    Respects same (get >>= f) := by
  intro s s' hsame
  have hr : ∀ s, (get >>= f : WorkOn σ β).run s = (f s).run s := fun _ => rfl
  rw [hr, hr, ← heq s s' hsame]
  exact hf s s s' hsame

theorem forM {f : α → WorkOn σ Unit} (hf : ∀ a, Respects same (f a)) (is : List α) : Respects same (is.forM f) := by
  induction is with
  | nil => exact pure ()
  | cons a tl ih => exact bind (hf a) fun _ => ih

end Respects

/-! ### Work that only reports -/

/-- Work whose outcome does not depend on earlier reports. -/
def IsBlind (x : Work α) : Prop := Respects (fun _ _ => True) x

theorem isBlind_note (notice : Notice) : IsBlind (Work.note notice) := Respects.modify fun _ _ _ => trivial

def Returns (x : Work α) (a : α) : Prop := ∃ notices notices', ExceptT.run x notices = (.ok a, notices')

theorem Returns.unique {x : Work α} {a b : α} (hx : IsBlind x) (ha : Returns x a) (hb : Returns x b) : a = b := by
  obtain ⟨n, n', ha⟩ := ha
  obtain ⟨k, k', hb⟩ := hb
  have hs := (hx n k trivial).1
  rw [ha, hb] at hs
  exact Except.ok.inj hs

theorem Returns.of_bind {x : Work α} {f : α → Work β} {b : β} (h : Returns (x >>= f) b) :
    ∃ a, Returns x a ∧ Returns (f a) b := by
  obtain ⟨n, n', h⟩ := h
  obtain ⟨a, k, hx, hf⟩ := run_bind_ok h
  exact ⟨a, ⟨n, k, hx⟩, ⟨k, n', hf⟩⟩

theorem Returns.of_ite_bind {c : Prop} [Decidable c] {x y : Work α} {f : α → Work β} {b : β}
    (h : Returns (if c then x >>= f else y >>= f) b) : ∃ a, Returns (if c then x else y) a ∧ Returns (f a) b := by
  split_ifs at h ⊢ <;> exact h.of_bind

theorem Returns.of_pure {a b : α} (h : Returns (pure a) b) : a = b := by
  obtain ⟨n, n', h⟩ := h
  exact Except.ok.inj (Prod.mk.inj h).1

theorem Returns.of_ofExcept {r : Except Failure α} {a : α} (h : Returns (Work.ofExcept r) a) : r = .ok a := by
  obtain ⟨n, n', h⟩ := h
  cases r with
  | ok b => exact (Prod.mk.inj h).1
  | error f => cases h

/-- Reports do not matter, so the value is that of the run from the start. -/
theorem Returns.run_eq {x : Work α} {a : α} (hx : IsBlind x) (h : Returns x a) : x.run.1 = .ok a := by
  obtain ⟨n, n', h⟩ := h
  have hs := (hx [] n trivial).1
  rw [h] at hs
  exact hs

/-- Work that is done on a state of its own, from which the result is taken at the end. -/
theorem isBlind_of_respects {x : WorkOn σ Unit} (hx : Respects same x) {y : Work β} (start : List Notice → σ)
    (hs : ∀ n n', same (start n) (start n')) (r : σ → β) (hr : ∀ s s', same s s' → r s = r s')
    (hru : ∀ n, (ExceptT.run y n).1 = (x.run (start n)).1.map fun _ => r (x.run (start n)).2) : IsBlind y := by
  intro n n' _
  obtain ⟨ho, hst⟩ := hx _ _ (hs n n')
  rw [hru, hru, ho, hr _ _ hst]
  exact ⟨rfl, trivial⟩

/-! ### Rounds -/

/-- Benches that differ in their reports only. -/
def sameWork (b b' : Bench) : Prop := b.document = b'.document ∧ b.nextId = b'.nextId

theorem respects_round (p : Document → Planning α) : Respects sameWork (Bench.round p) := by
  rintro ⟨d, nextId, ns⟩ ⟨-, -, ns'⟩ ⟨rfl, rfl⟩
  exact ⟨rfl, rfl, rfl⟩

/-! ### Files -/

theorem isBlind_changeFiles (change : Json → Except Failure Json) : ∀ fs : OrderedMap String,
    IsBlind (Descriptor.changeFiles change fs)
  | [] => .pure _
  | (file, c) :: tl => by
    unfold Descriptor.changeFiles
    split
    · exact .bind (isBlind_note _) fun _ => isBlind_changeFiles change tl
    · exact .throw _
    · exact .bind (.ofExcept _) fun _ => .bind (isBlind_changeFiles change tl) fun _ => .pure _

theorem isBlind_decisionFiles (dialect : Dialect) (o : String → Option ByteArray) :
    ∀ fs : OrderedMap String, IsBlind (Decision.files dialect fs o)
  | [] => .pure _
  | (file, c) :: tl => by
    unfold Decision.files
    split
    · exact .bind (isBlind_note _) fun _ => isBlind_decisionFiles dialect o tl
    · exact .bind (isBlind_decisionFiles dialect o tl) fun _ => .pure _

namespace Camunda

theorem respects_rounds (m : Model) : Respects sameWork (rounds m) := by
  refine .bind (respects_round _) fun _ => ?_
  refine .bind (respects_round _) fun _ => ?_
  refine .bind (respects_round _) fun _ => ?_
  refine .bind (respects_round _) fun _ => ?_
  refine .bind (respects_round _) fun _ => ?_
  exact .bind (respects_round _) fun _ => respects_round _

theorem isBlind_generate (m : Model) (s : Document) : IsBlind (generate m s) := by
  refine isBlind_of_respects (respects_rounds m) (fun notices =>
      { document := Document.ensureNamespaces { s with coined := 0 } spaces, notices := notices })
    (fun _ _ => ⟨rfl, rfl⟩) Bench.document (fun _ _ h => h.1) fun notices => ?_
  unfold generate
  dsimp only [ExceptT.run]
  generalize rounds m _ = outcome
  rfl

theorem isBlind_artifacts (file : String) (skeleton : Document) (s : Sources) (o : String → Option ByteArray) :
    IsBlind (artifacts file skeleton s o) := by
  refine .bind (isBlind_note _) fun _ => ?_
  refine .bind (.bind (isBlind_generate _ _) fun _ => .pure _) fun _ => ?_
  refine .bind (isBlind_changeFiles _ _) fun _ => ?_
  refine .bind (isBlind_changeFiles _ _) fun _ => ?_
  refine .bind (isBlind_decisionFiles _ _ _) fun _ => ?_
  exact .bind (isBlind_note _) fun _ => .pure _

end Camunda

namespace Bonita

def sameDesk (d d' : Desk) : Prop := sameWork d.bench d'.bench ∧ d.actors = d'.actors

theorem respects_onBench {x : BenchWork α} (hx : Respects sameWork x) : Respects sameDesk (onBench x) := by
  rintro ⟨bench, actors⟩ ⟨bench', -⟩ ⟨hb, rfl⟩
  obtain ⟨hr, ha⟩ := hx bench bench' hb
  exact ⟨hr, ha, rfl⟩

theorem respects_step (c : Content) (step : Step) : Respects sameDesk (step.run c) := by
  have hr : ∀ {γ : Type} (p : Document → Planning γ), Respects sameDesk (onBench (Bench.round p)) :=
    fun p => respects_onBench (respects_round p)
  cases step with
  | actors =>
    refine .bind (hr planActors) fun actors => .modify ?_
    rintro d d' ⟨hb, -⟩
    exact ⟨hb, rfl⟩
  | links =>
    refine .get_bind (fun d d' hsame => ?_) fun desk => hr (planLinks desk.actors)
    rw [hsame.2]
  | _ => exact hr _

theorem isBlind_generate (c : Content) (s : Document) : IsBlind (generate c s) := by
  refine isBlind_of_respects (Respects.forM (respects_step c) Step.all) (Desk.ofSkeleton s)
    (fun _ _ => ⟨⟨rfl, rfl⟩, rfl⟩) (fun desk => desk.bench.document) (fun _ _ h => h.1.1) fun ns => ?_
  unfold generate
  dsimp only [ExceptT.run]
  generalize Step.all.forM (Step.run c) _ = outcome
  rfl

theorem isBlind_addOrganization (o : Option Organization) (fs : Artifacts) : IsBlind (addOrganization o fs) := by
  unfold addOrganization
  split
  · exact .bind (.ofExcept _) fun _ => .pure _
  · exact .bind (isBlind_note _) fun _ => .pure _

theorem isBlind_addBusinessModel (classes : Option ClassModel) (fs : Artifacts) :
    IsBlind (addBusinessModel classes fs) := by
  unfold addBusinessModel
  split
  · exact .bind (.ofExcept _) fun _ => .pure _
  · exact .pure _

theorem isBlind_artifacts (file : String) (first : Nat) (skeleton : Document) (s : Sources)
    (o : String → Option ByteArray) : IsBlind (artifacts file first skeleton s o) := by
  refine .bind (isBlind_note _) fun _ => ?_
  refine .bind (.bind (isBlind_decisionFiles _ _ _) fun _ => .bind (isBlind_changeFiles _ _) fun _ => .pure _)
    fun _ => ?_
  refine .bind (isBlind_generate _ _) fun _ => ?_
  refine .bind (.ofExcept _) fun _ => ?_
  refine .bind (isBlind_addOrganization _ _) fun _ => ?_
  refine .bind (isBlind_addBusinessModel _ _) fun _ => ?_
  exact .bind (isBlind_note _) fun _ => .pure _

end Bonita

end ProcessForge
