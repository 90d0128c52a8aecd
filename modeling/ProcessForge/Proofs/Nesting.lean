import ProcessForge.Descriptor
import ProcessForge.Proofs.Json.Grammar
import ProcessForge.Proofs.Text.Trim

/-! Bodies that are given as text, to any depth. A value that is read from a text is smaller than the text, so
    resolving a descriptor always calls itself on something smaller. Main statement: the calls end, and the bound
    on the nesting is never reached, so that resolving a value is one step with all its calls. -/

namespace ProcessForge.Descriptor

open List Json

variable {dialect : Dialect} {v w : Json} {s name : String} {ms : List (String × Json)} {items its : List Json}

/-! ### Sizes -/

theorem weight_lt_of_parse (h : Json.parse s = .ok v) : v.weight < (Json.str s).weight := by
  obtain ⟨tl, hv, -⟩ := parse_eq_ok_iff.mp h
  have hw := hv.weight_le
  have hs := length_skipSpace_le s.toList
  rw [weight, ← String.length_toList]
  omega

theorem weight_lt_of_bodyValue? (h : bodyValue? s = .ok (some v)) : v.weight < (Json.str s).weight := by
  have ht : (Text.trimChars s.toList).length ≤ s.length := by
    obtain ⟨b, a, hc, -⟩ := Text.exists_trimBy Text.isBlank s.toList
    have hl := congrArg length hc
    simp only [length_append, String.length_toList] at hl
    rw [Text.trimChars]
    omega
  have hp : Json.parse (String.ofList (Text.trimChars s.toList)) = .ok v → v.weight < (Json.str s).weight := by
    intro hp
    have hw := weight_lt_of_parse hp
    simp only [weight, String.length_ofList] at hw ⊢
    omega
  unfold bodyValue? at h
  dsimp only at h
  split at h
  · split at h <;> cases h
    next hv => exact hp hv
  · split at h <;> cases h
    next hv => exact hp hv
  · cases h

/-- What a member is resolved for is not larger than the member. -/
theorem weight_le_of_openBody (h : openBody dialect name v = .ok w) : w.weight ≤ v.weight := by
  unfold openBody at h
  split at h
  · next s =>
    split at h
    · cases hb : bodyValue? s with
      | error e => rw [hb] at h; cases h
      | ok o =>
        rw [hb] at h
        cases h
        cases o with
        | none => exact le_refl _
        | some u => exact (weight_lt_of_bodyValue? hb).le
    · cases h
      exact le_refl _
  · cases h
    exact le_refl _

/-! ### Calls -/

/-- Resolving the second value calls itself on the first one. -/
inductive Calls (dialect : Dialect) : Json → Json → Prop
  | item {v : Json} {items : List Json} (mem : v ∈ items) : Calls dialect v (.arr items)
  | member {v w : Json} {name : String} {members : List (String × Json)} (mem : (name, v) ∈ members)
      (opened : openBody dialect name v = .ok w) : Calls dialect w (.obj members)

theorem weight_le_itemsWeight (h : v ∈ items) : v.weight ≤ itemsWeight items := by
  induction items with
  | nil => cases h
  | cons item items ih =>
    rw [itemsWeight]
    rcases mem_cons.mp h with rfl | h
    · omega
    · have := ih h
      omega

theorem weight_le_membersWeight (h : (name, v) ∈ ms) : v.weight ≤ membersWeight ms := by
  induction ms with
  | nil => cases h
  | cons x ms ih =>
    rcases mem_cons.mp h with rfl | h <;> rw [membersWeight]
    · omega
    · have := ih h
      omega

theorem Calls.weight_lt (h : Calls dialect w v) : w.weight < v.weight := by
  cases h with
  | item mem =>
    have := weight_le_itemsWeight mem
    rw [weight]
    omega
  | member mem opened =>
    have := weight_le_membersWeight mem
    have := weight_le_of_openBody opened
    rw [weight]
    omega

theorem wellFounded_calls (dialect : Dialect) : WellFounded (Calls dialect) :=
  Subrelation.wf Calls.weight_lt (measure weight).wf

/-! ### Budgets -/

mutual

/-- A budget of twice the size is never used up. -/
theorem resolveWithin_succ (dialect : Dialect) : ∀ (k : Nat) (v : Json), 2 * v.weight ≤ k →
    resolveWithin dialect (k + 1) v = resolveWithin dialect k v
  | 0, v, h => absurd (weight_pos v) (by omega)
  | k + 1, .arr its, h => by
    rw [weight] at h
    rw [resolveWithin, resolveWithin, resolveItems_succ dialect k its (by omega)]
  | k + 1, .obj members, h => by
    rw [weight] at h
    rw [resolveWithin, resolveWithin, resolveMembers_succ dialect k members (by omega)]
  | k + 1, .str _, _ | k + 1, .null, _ | k + 1, .bool _, _ | k + 1, .int _, _ | k + 1, .float _, _ => by
    simp [resolveWithin]

theorem resolveItems_succ (dialect : Dialect) : ∀ (k : Nat) (its : List Json), 2 * itemsWeight its < k →
    resolveItems dialect (k + 1) its = resolveItems dialect k its
  | 0, _, h => absurd h (by omega)
  | k + 1, [], _ => by simp [resolveItems]
  | k + 1, item :: tl, h => by
    have := weight_pos item
    rw [itemsWeight] at h
    rw [resolveItems, resolveItems, resolveWithin_succ dialect k item (by omega),
      resolveItems_succ dialect k tl (by omega)]

theorem resolveMembers_succ (dialect : Dialect) : ∀ (k : Nat) (ms : List (String × Json)), 2 * membersWeight ms < k →
    resolveMembers dialect (k + 1) ms = resolveMembers dialect k ms
  | 0, _, h => absurd h (by omega)
  | k + 1, [], _ => by simp [resolveMembers]
  | k + 1, (name, v) :: tl, h => by
    have := weight_pos v
    rw [membersWeight] at h
    rw [resolveMembers, resolveMembers, resolveMembers_succ dialect k tl (by omega)]
    cases ho : openBody dialect name v with
    | error e => rfl
    | ok w =>
      have := weight_le_of_openBody ho
      simp only [bind, Except.bind]
      rw [resolveWithin_succ dialect k w (by omega)]

end

theorem resolveWithin_eq_resolve {k : Nat} (h : 2 * v.weight < k) : resolveWithin dialect k v = resolve dialect v := by
  induction k, h using Nat.le_induction with
  | base => rfl
  | succ k hf ih => rw [resolveWithin_succ dialect k v (by omega), ih]

/-- One step of resolving a value, with the calls that it makes left open. -/
def resolveStep (dialect : Dialect) (call : Json → Except Failure Json) : Json → Except Failure Json
  | .str s => .ok (.str (Expression.descriptorText dialect s))
  | .arr items => do return .arr (← items.mapM call)
  | .obj members => do return .obj (← members.mapM fun x => do
      let v ← openBody dialect x.1 x.2
      return (x.1, ← call v))
  | v => .ok v

theorem resolveItems_eq_mapM {k : Nat} (h : 2 * itemsWeight its < k) :
    resolveItems dialect k its = its.mapM (resolve dialect) := by
  induction its generalizing k with
  | nil =>
    obtain ⟨k, rfl⟩ := Nat.exists_eq_add_one_of_ne_zero (Nat.ne_zero_of_lt h)
    rfl
  | cons item its ih =>
    obtain ⟨k, rfl⟩ := Nat.exists_eq_add_one_of_ne_zero (Nat.ne_zero_of_lt h)
    have := weight_pos item
    rw [itemsWeight] at h
    rw [resolveItems, mapM_cons, ih (by omega), ← resolveWithin_succ dialect k item (by omega),
      resolveWithin_eq_resolve (by omega)]

theorem resolveMembers_eq_mapM {k : Nat} (h : 2 * membersWeight ms < k) :
    resolveMembers dialect k ms = ms.mapM fun x => do
      let v ← openBody dialect x.1 x.2
      return (x.1, ← resolve dialect v) := by
  induction ms generalizing k with
  | nil =>
    obtain ⟨k, rfl⟩ := Nat.exists_eq_add_one_of_ne_zero (Nat.ne_zero_of_lt h)
    rfl
  | cons x ms ih =>
    obtain ⟨k, rfl⟩ := Nat.exists_eq_add_one_of_ne_zero (Nat.ne_zero_of_lt h)
    have := weight_pos x.2
    rw [membersWeight] at h
    rw [resolveMembers, mapM_cons, ih (by omega)]
    cases ho : openBody dialect x.1 x.2 with
    | error e => rfl
    | ok w =>
      have := weight_le_of_openBody ho
      have hw : resolveWithin dialect k w = resolve dialect w := by
        rw [← resolveWithin_succ dialect k w (by omega), resolveWithin_eq_resolve (by omega)]
      simp only [bind, Except.bind, hw]
      cases resolve dialect w <;> rfl

theorem resolve_eq_step (dialect : Dialect) (v : Json) :
    resolve dialect v = resolveStep dialect (resolve dialect) v := by
  cases v with
  | arr its =>
    rw [resolve, resolveWithin, resolveItems_eq_mapM (by rw [weight]; omega)]
    rfl
  | obj members =>
    rw [resolve, resolveWithin, resolveMembers_eq_mapM (by rw [weight]; omega)]
    rfl
  | _ => simp [resolve, resolveWithin, resolveStep]

/-- Resolving a descriptor ends: no value has an endless row of calls, resolving a value is one step with all its
    calls, and a value that is read from a text is smaller than the text. -/
theorem resolve_ends : WellFounded (Calls .bonita) ∧
    (∀ v, resolve .bonita v = resolveStep .bonita (resolve .bonita) v) ∧
    ∀ s v, Json.parse s = .ok v → v.weight < (Json.str s).weight :=
  ⟨wellFounded_calls .bonita, resolve_eq_step .bonita, fun _ _ => weight_lt_of_parse⟩

end ProcessForge.Descriptor
