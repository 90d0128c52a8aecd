import ProcessForge.Compilation
import ProcessForge.Proofs.Nesting

/-! Failures that work can end with. Each step of a compilation stops for few reasons, and whatever is put together
    from steps stops for their reasons only. Conditions on failures are passed along: a step asks of its caller's
    condition that it covers the step's own failures. -/

namespace ProcessForge

open Xml List

variable {σ α β : Type} {p : Failure → Prop}

/-! ### Results -/

/-- A result that is no failure, or one of a class. -/
def ErrorsOnly (p : Failure → Prop) (result : Except Failure α) : Prop := ∀ failure, result = .error failure → p failure

namespace ErrorsOnly

theorem ok (a : α) : ErrorsOnly p (.ok a) := nofun

theorem error {f : Failure} (h : p f) : ErrorsOnly p (.error f : Except Failure α) := by
  rintro _ ⟨⟩
  exact h

theorem bind_ok {x : Except Failure α} {f : α → Except Failure β} (hx : ErrorsOnly p x)
    (hf : ∀ a, x = .ok a → ErrorsOnly p (f a)) : ErrorsOnly p (x >>= f) := by
  cases x with
  | error fl => exact error (hx fl rfl)
  | ok a => exact hf a rfl

theorem bind {x : Except Failure α} {f : α → Except Failure β} (hx : ErrorsOnly p x) (hf : ∀ a, ErrorsOnly p (f a)) :
    ErrorsOnly p (x >>= f) := hx.bind_ok fun a _ => hf a

theorem mapM {f : α → Except Failure β} : ∀ {is : List α}, (∀ a ∈ is, ErrorsOnly p (f a)) → ErrorsOnly p (is.mapM f)
  | [], _ => ok _
  | a :: tl, h => by
    rw [forall_mem_cons] at h
    rw [mapM_cons]
    exact .bind h.1 fun _ => .bind (mapM h.2) fun _ => ok _

theorem flatMapM {f : α → Except Failure (List β)} (hf : ∀ a, ErrorsOnly p (f a)) (is : List α) :
    ErrorsOnly p (is.flatMapM f) := by
  have hl : ∀ (is : List α) (done : List (List β)), ErrorsOnly p (flatMapM.loop f is done) := by
    intro is
    induction is with
    | nil => exact fun done => ok _
    | cons a tl ih => exact fun done => .bind (hf a) fun fd => ih (fd :: done)
  exact hl is []

end ErrorsOnly

/-! ### Work -/

theorem run_bind (x : WorkOn σ α) (f : α → WorkOn σ β) (s : σ) :
    (x >>= f).run s = (ExceptT.bindCont f (x.run s).1) (x.run s).2 := rfl

/-- Work that, if it stops, stops with a failure of a class. -/
def FailsOnly (p : Failure → Prop) (x : WorkOn σ α) : Prop := ∀ s, ErrorsOnly p (x.run s).1

namespace FailsOnly

theorem pure (a : α) : FailsOnly p (Pure.pure a : WorkOn σ α) := fun _ => .ok a

theorem throw {f : Failure} (h : p f) : FailsOnly p (MonadExcept.throw f : WorkOn σ α) := fun _ => .error h

theorem modify (g : σ → σ) : FailsOnly p (modify g : WorkOn σ Unit) := fun _ => .ok ()

/-- The second step is looked at only for the states in which the first one ends. -/
theorem run_bind {x : WorkOn σ α} {f : α → WorkOn σ β} {s : σ} (hx : ErrorsOnly p (x.run s).1)
    (hf : ∀ a s', x.run s = (.ok a, s') → ErrorsOnly p ((f a).run s').1) : ErrorsOnly p ((x >>= f).run s).1 := by
  rw [ProcessForge.run_bind]
  cases hr : (x.run s).1 with
  | error fl => exact .error (hx fl hr)
  | ok a => exact hf a _ (Prod.ext hr rfl)

theorem bind {x : WorkOn σ α} {f : α → WorkOn σ β} (hx : FailsOnly p x) (hf : ∀ a, FailsOnly p (f a)) :
    FailsOnly p (x >>= f) := fun s => run_bind (hx s) fun a s' _ => hf a s'

end FailsOnly

/-! ### Plans and rounds -/

theorem failsOnly_planning_note (notice : Notice) : FailsOnly p (Planning.note notice) := .modify _

theorem failsOnly_freshId : FailsOnly p Planning.freshId := fun _ => .ok _

theorem failsOnly_edit (h : p .forbiddenText) (pl : Place) (es : List Edit) : FailsOnly p (Planning.edit pl es) := by
  refine .bind (.modify _) fun _ => ?_
  split
  · exact .throw h
  · exact .pure _

/-! ### Descriptors -/

namespace Descriptor

/-- Resolving fails only where a body is opened. -/
theorem errorsOnly_resolve {dialect : Dialect} (h : ∀ name v, ErrorsOnly p (openBody dialect name v)) (v : Json) :
    ErrorsOnly p (resolve dialect v) := by
  induction v using (wellFounded_calls dialect).induction with
  | _ v ih =>
    rw [resolve_eq_step]
    cases v with
    | arr is => exact .bind (.mapM fun v hv => ih v (.item hv)) fun _ => .ok _
    | obj ms =>
      refine .bind (.mapM fun x hx => ?_) fun _ => .ok _
      exact .bind_ok (h _ _) fun w ho => .bind (ih w (.member hx ho)) fun _ => .ok _
    | _ => exact .ok _

end Descriptor

end ProcessForge
