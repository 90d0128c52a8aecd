import ProcessForge.OrderedMap
import Mathlib.Data.List.Basic
import Mathlib.Data.List.Induction

/-! Laws of maps that remember the order of their keys. -/

namespace ProcessForge.OrderedMap

open List Bool

variable {α β : Type} {entries xs : List (String × α)} {key : String} {value v : α} {m : OrderedMap α}

theorem mem_put {m : OrderedMap α} {key : String} {v : α} {x : String × α}
    (h : x ∈ m.put key v) : x ∈ m ∨ x = (key, v) := by
  induction m with
  | nil => exact Or.inr (mem_singleton.mp h)
  | cons f tl ih =>
    rw [put] at h
    split at h
    · next hk =>
      rcases mem_cons.mp h with rfl | h
      · exact Or.inr (by rw [beq_iff_eq.mp hk])
      · exact Or.inl (mem_cons_of_mem _ h)
    · rcases mem_cons.mp h with rfl | h
      · exact Or.inl (mem_cons_self ..)
      · exact (ih h).imp_left (mem_cons_of_mem _)

theorem mem_of_mem_ofList {entries : List (String × α)} {x : String × α} (h : x ∈ ofList entries) : x ∈ entries := by
  have hg : ∀ (entries : List (String × α)) (m : OrderedMap α), x ∈ m.putAll entries → x ∈ m ∨ x ∈ entries := by
    intro entries
    induction entries with
    | nil => exact fun m hm => Or.inl hm
    | cons f tl ih =>
      intro m hm
      rcases ih _ hm with hp | hr
      · rcases mem_put hp with hm | rfl
        · exact Or.inl hm
        · exact Or.inr (mem_cons_self ..)
      · exact Or.inr (mem_cons_of_mem _ hr)
  rcases hg entries [] h with hn | hme
  · cases hn
  · exact hme

theorem value?_put (m : OrderedMap α) (key : String) (value : α) (k : String) :
    (m.put key value).value? k = if key = k then some value else m.value? k := by
  induction m with
  | nil => simp [put, value?]
  | cons f tl ih =>
    obtain ⟨k', v⟩ := f
    rw [put]
    by_cases hke : k' = key
    · subst hke
      by_cases hk : k' = k <;> simp [value?, hk]
    · by_cases hk : k' = k
      · subst hk
        simp [value?, hke, Ne.symm hke]
      · simp [value?, hke, hk, ih]

theorem mem_of_value? {key : String} {value : α} : ∀ {m : OrderedMap α}, m.value? key = some value → (key, value) ∈ m
  | (k, v) :: tl, h => by
    rw [value?] at h
    split at h
    · next hk =>
      cases h
      rw [beq_iff_eq.mp hk]
      exact mem_cons_self
    · exact mem_cons_of_mem _ (mem_of_value? h)

theorem value?_ofList (hme : (key, value) ∈ xs) (ha : ∀ b, (key, b) ∈ xs → b = value) :
    (ofList xs).value? key = some value := by
  have hg : ∀ (xs : List (String × α)) (m : OrderedMap α), (∀ b, (key, b) ∈ xs → b = value) →
      (m.value? key = some value ∨ (key, value) ∈ xs) →
      (m.putAll xs).value? key = some value := by
    intro xs
    induction xs with
    | nil =>
      rintro m - (hm | hn)
      · exact hm
      · cases hn
    | cons f tl ih =>
      intro m ha hm
      refine ih (m.put f.1 f.2) (fun b ho => ha b (mem_cons_of_mem _ ho)) ?_
      rw [value?_put]
      split
      · next hk =>
        exact Or.inl (congrArg some (ha f.2 (hk ▸ mem_cons_self ..)))
      · next hk =>
        refine hm.imp_right fun hme => ?_
        rcases mem_cons.mp hme with rfl | hme
        · exact absurd rfl hk
        · exact hme
  exact hg xs [] ha (Or.inr hme)

theorem put_mapValues (g : α → β) (key : String) (value : α) : ∀ m : OrderedMap α,
    (m.put key value).mapValues g = (m.mapValues g).put key (g value)
  | [] => rfl
  | (k, v) :: tl => by
    have ih := put_mapValues g key value tl
    by_cases hk : k == key
    · simp [put, mapValues, hk]
    · simp only [put, mapValues, hk, map_cons] at ih ⊢
      simp [ih]

theorem ofList_mapValues (g : α → β) (xs : List (String × α)) : ofList (xs.map fun x => (x.1, g x.2))
      = (ofList xs).mapValues g := by
  have hg : ∀ (xs : List (String × α)) (m : OrderedMap α), putAll (m.mapValues g) (xs.map fun x => (x.1, g x.2))
        = (m.putAll xs).mapValues g := by
    intro xs
    induction xs with
    | nil => intro m; rfl
    | cons x tl ih =>
      intro m
      have hp := put_mapValues g x.1 x.2 m
      simp only [putAll, map_cons, foldl_cons] at ih ⊢
      rw [← hp, ih]
  exact hg xs []

/-- Two lists with the same keys, whose values are related: as maps, the second one is the first one with its
    values changed, if the relation is a function on the values that the map keeps. -/
theorem ofList_eq_mapValues {R : α → β → Prop} {g : α → β} {xs : List (String × α)} {xs' : List (String × β)}
    (h : Forall₂ (fun x x' => x'.1 = x.1 ∧ R x.2 x'.2) xs xs')
    (hg : ∀ x ∈ ofList xs, ∀ v, R x.2 v → v = g x.2) : ofList xs' = (ofList xs).mapValues g := by
  have hpa : ∃ pairs : List (String × α × β), xs = pairs.map (fun p => (p.1, p.2.1)) ∧
      xs' = pairs.map (fun p => (p.1, p.2.2)) ∧ ∀ p ∈ pairs, R p.2.1 p.2.2 := by
    clear hg
    induction h with
    | nil => exact ⟨[], rfl, rfl, by simp⟩
    | @cons x x' tl tl' hh _ ih =>
      obtain ⟨pairs, rfl, rfl, hr⟩ := ih
      refine ⟨(x.1, x.2, x'.2) :: pairs, rfl, ?_, ?_⟩
      · rw [map_cons, ← hh.1]
      · exact forall_mem_cons.mpr ⟨hh.2, hr⟩
  obtain ⟨pairs, rfl, rfl, hr⟩ := hpa
  rw [ofList_mapValues Prod.fst] at hg ⊢
  rw [ofList_mapValues Prod.snd]
  simp only [mapValues, map_map]
  refine map_congr_left fun p hp => ?_
  have hv := hg (p.1, p.2.1) (mem_map_of_mem hp) p.2.2 (hr p (mem_of_mem_ofList hp))
  exact congrArg (p.1, ·) hv

theorem value?_mapValues (g : α → β) (key : String) : ∀ m : OrderedMap α,
    (m.mapValues g).value? key = (m.value? key).map g
  | [] => rfl
  | (k, v) :: tl => by
    have ih := value?_mapValues g key tl
    by_cases hk : k == key
    · simp [mapValues, value?, hk]
    · simp only [mapValues, value?, hk, map_cons] at ih ⊢
      simpa using ih

/-! ### Repeated writes -/

theorem put_put (m : OrderedMap α) (key : String) (v w : α) : (m.put key v).put key w = m.put key w := by
  induction m with
  | nil => simp [put]
  | cons f tl ih =>
    obtain ⟨k, u⟩ := f
    by_cases hk : k = key
    · simp [put, hk]
    · simp [put, hk, ih]

theorem has_put (m : OrderedMap α) (key : String) (v : α) (k : String) :
    (m.put key v).has k = (m.has k || key == k) := by
  induction m with
  | nil => simp [put, has]
  | cons f tl ih =>
    obtain ⟨k', u⟩ := f
    by_cases hk : k' = key
    · subst hk
      by_cases hk' : k' = k <;> simp [put, has, hk']
    · simp only [put, has, beq_iff_eq, hk, if_false, any_cons] at ih ⊢
      rw [ih, Bool.or_assoc]

/-- Writing to two keys commutes if the second one is present, since then it keeps its place. -/
theorem put_comm {m : OrderedMap α} {key b : String} (hn : key ≠ b) (ho : m.has b)
    (v w : α) : (m.put key v).put b w = (m.put b w).put key v := by
  induction m with
  | nil => simp [has] at ho
  | cons f tl ih =>
    obtain ⟨k, u⟩ := f
    by_cases hk : k = key
    · subst hk
      simp [put, hn]
    · by_cases hk' : k = b
      · subst hk'
        simp [put, hk]
      · have hr : has tl b := by simpa [has, hk'] using ho
        simp [put, hk, hk', ih hr]

theorem putAll_append (m : OrderedMap α) (xs more : List (String × α)) :
    m.putAll (xs ++ more) = (m.putAll xs).putAll more := foldl_append

theorem has_putAll (xs : List (String × α)) (k : String) : ∀ m : OrderedMap α,
    (m.putAll xs).has k = (m.has k || xs.any fun x => x.1 == k) := by
  induction xs with
  | nil => simp [putAll]
  | cons x tl ih =>
    intro m
    have := ih (m.put x.1 x.2)
    simp only [putAll, foldl_cons, any_cons] at this ⊢
    rw [this, has_put, Bool.or_assoc]

theorem mem_ofList_of_mem (h : (key, v) ∈ entries) : ∃ kept, (key, kept) ∈ ofList entries := by
  have hh : (ofList entries).has key := by
    rw [ofList, has_putAll, or_eq_true, any_eq_true]
    exact Or.inr ⟨_, h, by simp⟩
  obtain ⟨⟨k, kept⟩, hm, hk⟩ := any_eq_true.mp hh
  obtain rfl : k = key := by simpa using hk
  exact ⟨kept, hm⟩

theorem put_putAll_put {v : α} : ∀ {xs : List (String × α)} {m : OrderedMap α},
    (∀ x ∈ xs, m.has x.1) → ((m.put key v).putAll xs).put key v = (m.putAll xs).put key v := by
  intro xs
  induction xs with
  | nil =>
    intro m _
    exact put_put m key v v
  | cons x tl ih =>
    intro m h
    obtain ⟨k, w⟩ := x
    simp only [putAll, foldl_cons] at ih ⊢
    by_cases hk : key = k
    · rw [hk, put_put]
    · rw [put_comm hk (h _ (mem_cons_self ..))]
      refine ih fun x he => ?_
      rw [has_put, h x (mem_cons_of_mem _ he), Bool.true_or]

theorem putAll_putAll (m : OrderedMap α) (entries : List (String × α)) :
    (m.putAll entries).putAll entries = m.putAll entries := by
  induction entries using reverseRecOn with
  | nil => rfl
  | append_singleton entries x ih =>
    have hk : ∀ e ∈ entries, (m.putAll entries).has e.1 := by
      intro e he
      rw [has_putAll, or_eq_true, any_eq_true]
      exact Or.inr ⟨e, he, by simp⟩
    have hl : ∀ n : OrderedMap α, n.putAll [x] = n.put x.1 x.2 := fun _ => rfl
    rw [putAll_append, putAll_append, hl, hl, put_putAll_put hk, ih]

/-! ### Keys without repetition -/

theorem has_iff : m.has key ↔ key ∈ m.keys := by
  simp [has, keys, any_eq_true]

theorem mem_keys_put {k : String} : k ∈ (m.put key v).keys ↔ k ∈ m.keys ∨ k = key := by
  rw [← has_iff, has_put, or_eq_true, has_iff, beq_iff_eq, eq_comm]

theorem nodup_keys_put {key : String} {value : α} : ∀ {m : OrderedMap α}, m.keys.Nodup → (m.put key value).keys.Nodup
  | [], _ => pairwise_singleton _ key
  | (k, v) :: tl, h => by
    obtain ⟨hk, hr⟩ := nodup_cons.mp h
    rw [put]
    split
    · exact h
    · next hn =>
      refine nodup_cons.mpr ⟨fun hm => ?_, nodup_keys_put hr⟩
      rcases mem_keys_put.mp hm with hm | heq
      · exact hk hm
      · exact hn (beq_iff_eq.mpr heq)

theorem put_of_not_mem {key : String} {value : α} : ∀ {m : OrderedMap α}, key ∉ m.keys →
    m.put key value = m ++ [(key, value)]
  | [], _ => rfl
  | (k, v) :: tl, h => by
    obtain ⟨hn, hr⟩ := not_or.mp (fun ho => h (mem_cons.mpr ho))
    have hk : ¬ (k == key) := fun heq => hn (beq_iff_eq.mp heq).symm
    rw [put, if_neg hk, put_of_not_mem hr]
    rfl

theorem putAll_eq_append {entries : List (String × α)} : ∀ {m : OrderedMap α}, (keys (m ++ entries)).Nodup →
    m.putAll entries = m ++ entries := by
  induction entries with
  | nil => exact fun _ => (append_nil _).symm
  | cons x rest ih =>
    intro m h
    have hn : x.1 ∉ m.keys := by
      rw [keys, map_append, nodup_append] at h
      exact fun hm => h.2.2 x.1 hm x.1 (mem_cons_self ..) rfl
    have hs : m ++ x :: rest = (m ++ [x]) ++ rest := by rw [append_assoc]; rfl
    rw [hs] at h ⊢
    rw [← ih h, ← put_of_not_mem hn]
    rfl

/-! ### Many writes -/

theorem nodup_eraseDups : ∀ ns : List String, ns.eraseDups.Nodup
  | [] => by simp
  | name :: tl => by
    rw [eraseDups_cons, nodup_cons]
    exact ⟨by simp, nodup_eraseDups _⟩
  termination_by ns => ns.length
  decreasing_by exact Nat.lt_succ_of_le (length_filter_le ..)

theorem eraseDups_append_singleton (ns : List String) (name : String) :
    (ns ++ [name]).eraseDups = if name ∈ ns then ns.eraseDups else ns.eraseDups ++ [name] := by
  rw [eraseDups_append]
  split
  · next hm => simp [removeAll, hm]
  · next hm => simp [removeAll, hm, eraseDups_cons]

theorem putAll_cons (m : OrderedMap α) (x : String × α) (rest : List (String × α)) :
    m.putAll (x :: rest) = (m.put x.1 x.2).putAll rest := rfl

theorem value?_putAll (key : String) (xs : List (String × α)) : ∀ m : OrderedMap α, (m.putAll xs).value? key
      = ((xs.reverse.find? fun x => x.1 == key).map Prod.snd).or (m.value? key) := by
  induction xs with
  | nil => exact fun m => rfl
  | cons x tl ih =>
    intro m
    rw [putAll_cons, ih, value?_put, reverse_cons, find?_append]
    cases tl.reverse.find? fun x => x.1 == key with
    | some last => rfl
    | none => by_cases hk : x.1 = key <;> simp [hk]

theorem keys_put_of_mem {key : String} {value : α} : ∀ {m : OrderedMap α}, key ∈ m.keys →
    (m.put key value).keys = m.keys
  | (k, v) :: tl, h => by
    rw [put]
    split
    · rfl
    · next hn =>
      rcases mem_cons.mp h with rfl | hr
      · exact absurd (beq_self_eq_true _) hn
      · exact congrArg (k :: ·) (keys_put_of_mem hr)

/-- Keys that are present keep their places, and new ones follow in the order of their first appearance. -/
theorem keys_putAll (xs : List (String × α)) : ∀ m : OrderedMap α, (m.putAll xs).keys
    = m.keys ++ ((xs.map Prod.fst).filter fun key => !m.keys.contains key).eraseDups := by
  induction xs with
  | nil => simp [putAll]
  | cons x tl ih =>
    intro m
    rw [putAll_cons, ih, map_cons]
    by_cases hk : x.1 ∈ m.keys
    · rw [keys_put_of_mem hk, filter_cons_of_neg (by simpa using hk)]
    · have hke : (m.put x.1 x.2).keys = m.keys ++ [x.1] := by
        rw [put_of_not_mem hk, keys, map_append]
        rfl
      rw [hke, filter_cons_of_pos (by simpa using hk), eraseDups_cons]
      simp [Bool.and_comm, beq_eq_decide_eq]

theorem value?_append (m m' : OrderedMap α) (key : String) :
    value? (m ++ m') key = (m.value? key).or (m'.value? key) := by
  induction m with
  | nil => rfl
  | cons x tl ih =>
    rw [cons_append, value?, value?]
    split
    · rfl
    · exact ih

theorem isSome_value? (m : OrderedMap α) (key : String) : (m.value? key).isSome = m.has key := by
  induction m with
  | nil => rfl
  | cons x tl ih =>
    rw [value?, has, any_cons, ← has]
    split <;> simp_all

theorem value?_eq_some_iff {m : OrderedMap α} {key : String} {value : α} (h : m.keys.Nodup) :
    m.value? key = some value ↔ (key, value) ∈ m := by
  refine ⟨mem_of_value?, fun hm => ?_⟩
  induction m with
  | nil => cases hm
  | cons x tl ih =>
    obtain ⟨k, v⟩ := x
    rw [keys, map_cons, nodup_cons] at h
    rw [value?]
    rcases mem_cons.mp hm with heq | hr
    · cases heq
      rw [if_pos (beq_self_eq_true key)]
    · have hn : k ≠ key := by
        rintro rfl
        exact h.1 (mem_map.mpr ⟨(k, value), hr, rfl⟩)
      rw [if_neg (by simpa using hn), ih h.2 hr]

end ProcessForge.OrderedMap
