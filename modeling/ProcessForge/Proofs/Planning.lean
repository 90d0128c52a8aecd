import ProcessForge.Proofs.Failing
import ProcessForge.Proofs.Xml.Perform

/-! Rounds that succeed. A round whose planning succeeds does all of its jobs, and the jobs are those that the
    parts of the plan ask for, one after the other. -/

namespace ProcessForge

open Xml List

/-! ### Work that succeeds -/

section

variable {σ α β : Type} {x : WorkOn σ α} {f : α → WorkOn σ β} {s s₁ s' : σ} {a : α} {b : β}

theorem run_bind_ok (h : (x >>= f).run s = (.ok b, s')) :
    ∃ a s₁, x.run s = (.ok a, s₁) ∧ (f a).run s₁ = (.ok b, s') := by
  rw [run_bind] at h
  cases hx : (x.run s).1 with
  | error fl =>
    rw [hx] at h
    cases h
  | ok a =>
    rw [hx] at h
    exact ⟨a, (x.run s).2, Prod.ext hx rfl, h⟩

theorem run_bind_of_ok (h : x.run s = (.ok a, s₁)) : (x >>= f).run s = (f a).run s₁ := by
  rw [run_bind, h]
  rfl

theorem exists_ok [Inhabited α] {r : Except Failure α × σ} (h : r.1.toOption.isSome) :
    ∃ s, r = (.ok (r.1.toOption.getD default), s) := by
  obtain ⟨res, s⟩ := r
  cases res with
  | error fl => cases h
  | ok a => exact ⟨s, rfl⟩

theorem run_bind_of_error {failure : Failure} (h : (x.run s).1 = .error failure) :
    ((x >>= f).run s).1 = .error failure := by
  rw [run_bind, h]
  rfl

end

/-! ### Edits that can be carried out -/

namespace Xml

/-- The text of a value; none for an id that is made up. -/
def DraftValue.text? : DraftValue → Option String
  | text s => some s
  | newId => none

mutual

def Draft.texts : Draft → List String
  | .text s => [s]
  | .element _ attributes content => attributes.filterMap (·.2.text?) ++ textsOfAll content

def textsOfAll : List Draft → List String
  | [] => []
  | draft :: rest => draft.texts ++ textsOfAll rest

end

theorem all_isWritable (as : List (Label × DraftValue)) : (as.all fun a => a.2.isWritable)
    = (as.filterMap (·.2.text?)).all isAllowedText := by
  induction as with
  | nil => rfl
  | cons a tl ih =>
    obtain ⟨l, v⟩ := a
    rw [all_cons, ih]
    cases v <;> rfl

mutual

theorem cut_draft_eq : ∀ d : Draft, d.cut.2 = d.texts.all isAllowedText
  | .text s => by simp [Draft.cut, Draft.texts]
  | .element l as c => by
    rw [Draft.cut, Draft.texts, all_append, ← all_isWritable]
    split
    · next ha => rw [ha, Bool.true_and, ← cutAll_eq c]
    · next ha => rw [(Bool.not_eq_true _).mp ha, Bool.false_and]

theorem cutAll_eq : ∀ ds : List Draft, (Draft.cutAll ds).2 = (textsOfAll ds).all isAllowedText
  | [] => by simp [Draft.cutAll, textsOfAll]
  | .text s :: tl => by
    rw [Draft.cutAll, textsOfAll, all_append, ← cutAll_eq tl, Draft.texts]
    cases hs : isAllowedText s <;> simp [hs]
  | .element l as c :: tl => by
    have hf := cut_draft_eq (.element l as c)
    rw [Draft.cutAll, textsOfAll, all_append, ← cutAll_eq tl, ← hf]
    simp only
    cases (Draft.cut (.element l as c)).2 <;> rfl

end

theorem cutEdits_cons (e : Edit) (tl : List Edit) : (cutEdits (e :: tl)).2 = (e.cut.2 && (cutEdits tl).2) := by
  rw [cutEdits]
  simp only
  cases e.cut.2 <;> rfl

theorem cutEdits_append (first second : List Edit) :
    (cutEdits (first ++ second)).2 = ((cutEdits first).2 && (cutEdits second).2) := by
  induction first with
  | nil => simp [cutEdits]
  | cons e tl ih => rw [cons_append, cutEdits_cons, cutEdits_cons, ih, Bool.and_assoc]

end Xml

mutual

theorem cut_draft_whole : ∀ d : Draft, (d.cut).2 → (d.cut).1 = d
  | .text s, _ => by rw [Draft.cut]
  | .element l as c, h => by
    rw [Draft.cut] at h ⊢
    split at h
    · next ha =>
      rw [if_pos ha]
      simp only at h ⊢
      rw [cutAll_whole c h]
    · cases h

theorem cutAll_whole : ∀ ds : List Draft, (Draft.cutAll ds).2 → (Draft.cutAll ds).1 = ds
  | [], _ => by rw [Draft.cutAll]
  | .text s :: tl, h => by
    rw [Draft.cutAll] at h ⊢
    split at h
    · next hs =>
      rw [if_pos hs]
      simp only at h ⊢
      rw [cutAll_whole tl h]
    · cases h
  | .element l as c :: tl, h => by
    rw [Draft.cutAll] at h ⊢
    simp only at h ⊢
    split at h
    · next hf =>
      rw [if_pos hf]
      rw [cut_draft_whole _ hf, cutAll_whole tl h]
    · cases h

end

mutual

theorem cut_edit_whole : ∀ e : Edit, (e.cut).2 → (e.cut).1 = [e]
  | .set _ _, h | .setMissing _ _, h | .setText _, h => by
    rw [Edit.cut] at h ⊢
    split at h
    · next hs => rw [if_pos hs]
    · cases h
  | .append d, h | .ensure d, h | .ensureFirst d, h => by
    rw [Edit.cut] at h ⊢
    simp only at h ⊢
    rw [cut_draft_whole d h]
  | .place d anchors, h => by
    rw [Edit.cut] at h ⊢
    simp only at h ⊢
    rw [if_pos h, cut_draft_whole d h]
  | .within l es, h => by
    rw [Edit.cut] at h ⊢
    simp only at h ⊢
    rw [cutEdits_whole es h]
  | .drop _, _ | .clear _, _ | .clearAll, _ | .graft _, _ => by rw [Edit.cut]

theorem cutEdits_whole : ∀ es : List Edit, (cutEdits es).2 → (cutEdits es).1 = es
  | [], _ => by rw [cutEdits]
  | e :: tl, h => by
    rw [cutEdits] at h ⊢
    simp only at h ⊢
    split at h
    · next hf =>
      rw [if_pos hf]
      rw [cut_edit_whole e hf, cutEdits_whole tl h, singleton_append]
    · cases h

end

/-! ### Plans -/

/-- A part of a plan, if it succeeds, adds jobs that meet a condition. -/
def Yields {α : Type} (x : Planning α) (P : List Job → Prop) : Prop :=
  ∀ plan a plan', x.run plan = (.ok a, plan') → ∃ jobs, plan'.jobs = plan.jobs ++ jobs ∧ P jobs

variable {α : Type} {P Q : List Job → Prop} {b b' : Bench} {ok : Prop} {jobs js : List Job}

theorem Yields.mono {x : Planning α} (hx : Yields x P) (h : ∀ js, P js → Q js) : Yields x Q := by
  intro pl a plan' hrun
  obtain ⟨js, hj, hP⟩ := hx pl a plan' hrun
  exact ⟨js, hj, h js hP⟩

theorem Yields.pure (h : P []) (a : α) : Yields (Pure.pure a : Planning α) P := by
  intro pl b plan' hr
  cases hr
  exact ⟨[], by simp, h⟩

theorem Yields.throw (P : List Job → Prop) (fl : Failure) : Yields (MonadExcept.throw fl : Planning α) P := by
  intro pl b plan' hr
  cases hr

theorem Yields.bind {β : Type} {x : Planning α} {f : α → Planning β}
    (hx : Yields x P) (hf : ∀ a js, P js → Yields (f a) fun jobs' => Q (js ++ jobs')) : Yields (x >>= f) Q := by
  intro pl b plan' hr
  obtain ⟨a, plan₁, hfi, hs⟩ := run_bind_ok hr
  obtain ⟨js, hj, hP⟩ := hx pl a plan₁ hfi
  obtain ⟨jobs', hj', hQ⟩ := hf a js hP plan₁ b plan' hs
  exact ⟨js ++ jobs', by rw [hj', hj, append_assoc], hQ⟩

theorem Yields.note (h : P []) (notice : Notice) : Yields (Planning.note notice) P := by
  intro pl a plan' hr
  cases hr
  exact ⟨[], by simp, h⟩

theorem Yields.edit (pl : Place) (es : List Edit) : Yields (Planning.edit pl es) (· = [⟨pl.path, es⟩]) := by
  intro plan a plan' hru
  obtain ⟨u, plan₁, hm, hr⟩ := run_bind_ok hru
  cases hm
  by_cases hw : (cutEdits es).2
  · have hc := cutEdits_whole es hw
    simp only [hw, Bool.not_true, Bool.false_eq_true, if_false] at hr
    cases hr
    exact ⟨_, rfl, by rw [hc]⟩
  · simp only [hw, Bool.not_false, if_true] at hr
    cases hr

/-! ### Plans with jobs of a class -/

/-- A part of a plan stops with failures of a class only, and if it succeeds, it adds jobs of a class only. -/
structure Adds {α : Type} (p : Failure → Prop) (J : Job → Prop) (x : Planning α) : Prop where
  fails : FailsOnly p x
  yields : Yields x fun jobs => ∀ job ∈ jobs, J job

namespace Adds

variable {α β : Type} {p : Failure → Prop} {J : Job → Prop}

theorem pure (a : α) : Adds p J (Pure.pure a : Planning α) := ⟨.pure a, Yields.pure nofun a⟩

theorem throw {fl : Failure} (h : p fl) : Adds p J (MonadExcept.throw fl : Planning α) :=
  ⟨.throw h, Yields.throw _ fl⟩

theorem note (notice : Notice) : Adds p J (Planning.note notice) :=
  ⟨failsOnly_planning_note notice, Yields.note nofun notice⟩

theorem freshId : Adds p J Planning.freshId := by
  refine ⟨failsOnly_freshId, fun pl a plan' hr => ?_⟩
  cases hr
  exact ⟨[], by simp, nofun⟩

theorem edit (ht : p .forbiddenText) {pl : Place} {es : List Edit} (h : J ⟨pl.path, es⟩) :
    Adds p J (Planning.edit pl es) := by
  refine ⟨failsOnly_edit ht pl es, (Yields.edit pl es).mono fun js hj => ?_⟩
  rw [hj]
  exact forall_mem_singleton.mpr h

theorem bind {x : Planning α} {f : α → Planning β} (hx : Adds p J x) (hf : ∀ a, Adds p J (f a)) :
    Adds p J (x >>= f) := by
  refine ⟨hx.fails.bind fun a => (hf a).fails, hx.yields.bind fun a js hj => ?_⟩
  exact (hf a).yields.mono fun jobs' hj' => forall_mem_append.mpr ⟨hj, hj'⟩

theorem bind_ofExcept {r : Except Failure α} {f : α → Planning β} (h : ErrorsOnly p r)
    (hf : ∀ a, r = .ok a → Adds p J (f a)) : Adds p J (Work.ofExcept r >>= f) := by
  cases r with
  | ok a => exact hf a rfl
  | error fl => exact throw (h fl rfl)

theorem discard {x : Planning α} (hx : Adds p J x) : Adds p J (Functor.discard x) := hx.bind fun _ => pure _

theorem forM {f : α → Planning Unit} : ∀ {xs : List α}, (∀ x ∈ xs, Adds p J (f x)) → Adds p J (xs.forM f)
  | [], _ => pure _
  | x :: xs, h => by
    rw [forall_mem_cons] at h
    exact h.1.bind fun _ => forM h.2

theorem foldlM {f : β → α → Planning β} (h : ∀ b a, Adds p J (f b a)) : ∀ (xs : List α) (b : β),
    Adds p J (xs.foldlM f b)
  | [], b => pure b
  | x :: xs, b => (h b x).bind fun b => foldlM h xs b

end Adds

/-- A part of a plan stops with failures of a class only, and if it succeeds, it adds edits of elements at some places
    only, and they are fit for the element there. -/
abbrev YieldsAt {α : Type} (p : Failure → Prop) (places : List Place) (Q : Element → Edit → Prop) (x : Planning α) :
    Prop :=
  Adds p (fun job => ∃ place ∈ places, place.path = job.path ∧ ∀ edit ∈ job.edits, Q place.element edit) x

/-! ### Plans that are known -/

/-- A part of a plan succeeds exactly under a condition, and then it adds the given jobs. -/
structure Plans {α : Type} (x : Planning α) (ok : Prop) (jobs : List Job) : Prop where
  yields : Yields x (· = jobs)
  succeeds : ∀ plan, (∃ a plan', x.run plan = (.ok a, plan')) ↔ ok

namespace Plans

variable {α β : Type}

variable {ok ok' : Prop} {jobs js jobs' : List Job}

theorem congr {x : Planning α} (h : Plans x ok jobs) (ho : ok ↔ ok') (hj : jobs = jobs') : Plans x ok' jobs' :=
  hj ▸ ⟨h.yields, fun pl => (h.succeeds pl).trans ho⟩

theorem pure (a : α) : Plans (Pure.pure a : Planning α) True [] :=
  ⟨Yields.pure (P := (· = [])) rfl a, fun _ => ⟨fun _ => trivial, fun _ => ⟨_, _, rfl⟩⟩⟩

theorem throw (fl : Failure) (jobs : List Job) : Plans (MonadExcept.throw fl : Planning α) False jobs := by
  refine ⟨Yields.throw _ fl, fun pl => ⟨?_, False.elim⟩⟩
  rintro ⟨a, plan', hr⟩
  cases hr

theorem edit (pl : Place) (es : List Edit) : Plans (Planning.edit pl es) ((cutEdits es).2) [⟨pl.path, es⟩] := by
  refine ⟨Yields.edit pl es, fun plan => ?_⟩
  rw [Planning.edit]
  cases hw : (cutEdits es).2 with
  | true => exact ⟨fun _ => rfl, fun _ => ⟨_, _, by simp only [hw]; rfl⟩⟩
  | false =>
    refine ⟨fun ⟨_, _, h⟩ => ?_, nofun⟩
    simp only [hw] at h
    cases h

theorem bind {x : Planning α} {f : α → Planning β} (hx : Plans x ok js)
    (hf : ∀ a, Plans (f a) ok' jobs') : Plans (x >>= f) (ok ∧ ok') (js ++ jobs') := by
  refine ⟨hx.yields.bind fun a first hfi => (hf a).yields.mono fun second hs => ?_, fun pl => ⟨?_, ?_⟩⟩
  · rw [hfi, hs]
  · rintro ⟨b, plan', hr⟩
    obtain ⟨a, plan₁, hfi, hs⟩ := run_bind_ok hr
    exact ⟨(hx.succeeds pl).mp ⟨a, plan₁, hfi⟩, ((hf a).succeeds plan₁).mp ⟨b, plan', hs⟩⟩
  · rintro ⟨ho, ho'⟩
    obtain ⟨a, plan₁, hfi⟩ := (hx.succeeds pl).mpr ho
    obtain ⟨b, plan', hs⟩ := ((hf a).succeeds plan₁).mpr ho'
    exact ⟨b, plan', (run_bind_of_ok hfi).trans hs⟩

theorem note (notice : Notice) : Plans (Planning.note notice) True [] :=
  ⟨Yields.note (P := (· = [])) rfl notice, fun _ => ⟨fun _ => trivial, fun _ => ⟨_, _, rfl⟩⟩⟩

theorem bind_ofExcept {r : Except Failure α} {f : α → Planning β} {ok : α → Prop}
    {js : α → List Job} (hf : ∀ a, Plans (f a) (ok a) (js a)) :
    Plans (Work.ofExcept r >>= f) (∃ a, r = .ok a ∧ ok a) ((r.toOption.map js).getD []) := by
  cases r with
  | ok a => exact (hf a).congr (by simp) rfl
  | error fl => exact (throw fl []).congr (by simp) rfl

theorem discard {x : Planning α} (hx : Plans x ok jobs) : Plans (Functor.discard x) ok jobs :=
  (hx.bind fun _ => pure _).congr (iff_of_eq (and_true _)) (append_nil _)

theorem forM {f : α → Planning Unit} {ok : α → Prop} {g : α → List Job} : ∀ {xs : List α},
    (∀ x ∈ xs, Plans (f x) (ok x) (g x)) → Plans (xs.forM f) (∀ x ∈ xs, ok x) (xs.flatMap g)
  | [], _ => (pure ()).congr (by simp) rfl
  | x :: xs, h => by
    refine ((h x (mem_cons_self ..)).bind fun _ =>
      forM fun y hy => h y (mem_cons_of_mem _ hy)).congr (by simp) ?_
    rw [flatMap_cons]

end Plans

/-! ### Rounds -/

theorem run_round {pl : Document → Planning α} {r : Except Failure α} {final : Plan}
    (h : (pl b.document).run { nextId := b.nextId } = (r, final)) :
    (Bench.round pl).run b = (r,
      { document := (b.document.perform final.nextId final.jobs).1
        nextId := (b.document.perform final.nextId final.jobs).2
        notices := b.notices ++ final.notices }) := by
  change Bench.round pl b = _
  rw [Bench.round]
  rw [h]

theorem round_ok {pl : Document → Planning α} {a : α}
    (hp : Yields (pl b.document) P) (h : (Bench.round pl).run b = (.ok a, b')) :
    ∃ js nextId, P js ∧ b'.document = (b.document.perform nextId js).1 := by
  rcases hr : (pl b.document).run { nextId := b.nextId } with ⟨r, final⟩
  rw [run_round hr] at h
  obtain ⟨rfl, rfl⟩ := Prod.mk.inj h
  obtain ⟨js, hj, hP⟩ := hp _ a final hr
  exact ⟨js, final.nextId, hP, by rw [hj]; rfl⟩

/-- A round whose plan succeeds does so too. -/
theorem exists_round_ok {pl : Document → Planning α}
    (hp : Plans (pl b.document) ok jobs) (h : ok) : ∃ a b', (Bench.round pl).run b = (.ok a, b') := by
  obtain ⟨a, final, hr⟩ := (hp.succeeds { nextId := b.nextId }).mpr h
  exact ⟨a, _, run_round hr⟩

/-- A round whose plan fails does so too. -/
theorem ok_of_round_ok {pl : Document → Planning α} {a : α}
    (hp : Plans (pl b.document) ok jobs) (h : (Bench.round pl).run b = (.ok a, b')) : ok := by
  rcases hr : (pl b.document).run { nextId := b.nextId } with ⟨r, final⟩
  rw [run_round hr] at h
  obtain ⟨rfl, -⟩ := Prod.mk.inj h
  exact (hp.succeeds _).mp ⟨a, final, hr⟩

end ProcessForge
