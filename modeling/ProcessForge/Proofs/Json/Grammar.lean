import ProcessForge.Proofs.Json.Tokens

/-! The grammar of JSON texts as relations between a text, what its beginning denotes, and the rest of the text.
    Main statement: the reader finds just the values that the grammar gives. Its budget of steps never runs out,
    since every step that calls another one has consumed a character. -/

namespace ProcessForge.Json

open List

variable {cs rest tl : List Char} {v : Json}

mutual

/-- The value with which a text begins, and what follows. -/
inductive Value : List Char → Json → List Char → Prop
  | scalar {cs rest : List Char} {v : Json} (read : readScalar cs = .ok (v, rest)) : Value cs v rest
  | string {cs s rest : List Char} (chars : Chars cs s rest) : Value ('"' :: cs) (str (String.ofList s)) rest
  | emptyArray {cs rest : List Char} (close : skipSpace cs = ']' :: rest) : Value ('[' :: cs) (arr []) rest
  | array {cs rest : List Char} {items : List Json} (all : Items cs items rest) : Value ('[' :: cs) (arr items) rest
  | emptyObject {cs rest : List Char} (close : skipSpace cs = '\x7d' :: rest) : Value ('\x7b' :: cs) (obj []) rest
  | object {cs rest : List Char} {members : List (String × Json)} (all : Members cs members rest) :
      Value ('\x7b' :: cs) (obj (OrderedMap.ofList members)) rest

/-- The items of an array up to its closing bracket. -/
inductive Items : List Char → List Json → List Char → Prop
  | last {cs after rest : List Char} {v : Json} (item : Value (skipSpace cs) v after)
      (close : skipSpace after = ']' :: rest) : Items cs [v] rest
  | more {cs after next rest : List Char} {v : Json} {items : List Json} (item : Value (skipSpace cs) v after)
      (comma : skipSpace after = ',' :: next) (others : Items next items rest) : Items cs (v :: items) rest

/-- The members of an object up to its closing brace. -/
inductive Members : List Char → List (String × Json) → List Char → Prop
  | last {cs quoted name afterName value after rest : List Char} {v : Json} (quote : skipSpace cs = '"' :: quoted)
      (chars : Chars quoted name afterName) (colon : skipSpace afterName = ':' :: value)
      (member : Value (skipSpace value) v after) (close : skipSpace after = '\x7d' :: rest) :
      Members cs [(String.ofList name, v)] rest
  | more {cs quoted name afterName value after next rest : List Char} {v : Json} {members : List (String × Json)}
      (quote : skipSpace cs = '"' :: quoted) (chars : Chars quoted name afterName)
      (colon : skipSpace afterName = ':' :: value) (member : Value (skipSpace value) v after)
      (comma : skipSpace after = ',' :: next) (others : Members next members rest) :
      Members cs ((String.ofList name, v) :: members) rest

end

theorem length_skipSpace_le (cs : List Char) : (skipSpace cs).length ≤ cs.length := (dropWhile_suffix _).length_le

theorem length_lt_of_skipSpace {c : Char} (h : skipSpace cs = c :: tl) : tl.length < cs.length := by
  have hl := length_skipSpace_le cs
  rw [h] at hl
  exact hl

theorem skipSpace_skipSpace (cs : List Char) : skipSpace (skipSpace cs) = skipSpace cs := by
  induction cs with
  | nil => rfl
  | cons c cs ih =>
    cases hc : isSpace c with
    | true => simpa [skipSpace, hc] using ih
    | false => simp [skipSpace, hc]

theorem weight_pos (v : Json) : 0 < v.weight := by
  cases v with
  | null | bool | int | float => exact Nat.one_pos
  | str | arr | obj => exact Nat.add_pos_left Nat.one_pos _

theorem membersWeight_put (name : String) (v : Json) : ∀ ms : List (String × Json),
    membersWeight (OrderedMap.put ms name v) ≤ membersWeight ms + (name.length + v.weight)
  | [] => by simp [OrderedMap.put, membersWeight]
  | (f, w) :: ms => by
    have hr := membersWeight_put name v ms
    rw [OrderedMap.put]
    split <;> simp only [membersWeight] <;> omega

/-- A repeated name only makes an object smaller. -/
theorem membersWeight_putAll (entries : List (String × Json)) : ∀ ms : List (String × Json),
    membersWeight (OrderedMap.putAll ms entries) ≤ membersWeight ms + membersWeight entries := by
  induction entries with
  | nil => exact fun _ => Nat.le_add_right _ _
  | cons x entries ih =>
    intro ms
    have hp := membersWeight_put x.1 x.2 ms
    have hi := ih (OrderedMap.put ms x.1 x.2)
    simp only [OrderedMap.putAll, foldl_cons, membersWeight] at hi ⊢
    omega

theorem weight_of_readScalar (h : readScalar cs = .ok (v, tl)) : v.weight = 1 := by
  have hn : ∀ {negative : Bool} {ds : List Char}, readNumber negative ds = .ok (v, tl) → v.weight = 1 := by
    intro negative ds h
    rw [readNumber_eq] at h
    unfold readAfterWhole at h
    repeat' split at h
    all_goals cases h
    all_goals rfl
  unfold readScalar at h
  split at h
  · next hw =>
    cases h
    unfold readWord at hw
    split at hw <;> cases hw <;> rfl
  · split at h
    · exact hn h
    · exact hn h

mutual

/-- A value is not larger than the text that it is read from. -/
theorem Value.weight_le {cs tl : List Char} {v : Json} : Value cs v tl → v.weight + tl.length ≤ cs.length
  | .scalar read => by
    obtain ⟨p, rfl, hn, -⟩ := exists_part_of_readScalar read
    have := length_pos_iff.mpr hn
    rw [weight_of_readScalar read, length_append]
    omega
  | .string chars => by
    have := chars.length_add_lt
    simp only [weight, String.length_ofList, length_cons]
    omega
  | .emptyArray close | .emptyObject close => by
    have := length_lt_of_skipSpace close
    simp only [weight, itemsWeight, membersWeight, length_cons]
    omega
  | .array all => by
    have := all.weight_lt
    simp only [weight, length_cons]
    omega
  | @Value.object _ _ ms all => by
    have := all.weight_lt
    have := membersWeight_putAll ms []
    simp only [weight, membersWeight, OrderedMap.ofList, length_cons] at this ⊢
    omega

theorem Items.weight_lt {cs tl : List Char} {is : List Json} : Items cs is tl → itemsWeight is + tl.length < cs.length
  | .last item close => by
    have := item.weight_le
    have := length_lt_of_skipSpace close
    have := length_skipSpace_le cs
    simp only [itemsWeight]
    omega
  | .more item comma os => by
    have := item.weight_le
    have := length_lt_of_skipSpace comma
    have := os.weight_lt
    have := length_skipSpace_le cs
    simp only [itemsWeight]
    omega

theorem Members.weight_lt {cs tl : List Char} {ms : List (String × Json)} :
    Members cs ms tl → membersWeight ms + tl.length < cs.length
  | @Members.last _ _ _ _ value _ _ _ quote chars colon member close => by
    have := length_lt_of_skipSpace quote
    have := chars.length_add_lt
    have := length_lt_of_skipSpace colon
    have := length_skipSpace_le value
    have := member.weight_le
    have := length_lt_of_skipSpace close
    simp only [membersWeight, String.length_ofList]
    omega
  | @Members.more _ _ _ _ value _ _ _ _ _ quote chars colon member comma others => by
    have := length_lt_of_skipSpace quote
    have := chars.length_add_lt
    have := length_lt_of_skipSpace colon
    have := length_skipSpace_le value
    have := member.weight_le
    have := length_lt_of_skipSpace comma
    have := others.weight_lt
    simp only [membersWeight, String.length_ofList]
    omega

end

theorem Value.length_lt (h : Value cs v tl) : tl.length < cs.length := by
  have := h.weight_le
  have := weight_pos v
  omega

/-! ### The reader finds what the grammar gives -/

theorem readItems_skipSpace (k : Nat) (cs : List Char) : readItems k (skipSpace cs) = readItems k cs := by
  cases k with
  | zero => rfl
  | succ k => rw [readItems, readItems, skipSpace_skipSpace]

theorem readMembers_skipSpace (k : Nat) (cs : List Char) : readMembers k (skipSpace cs) = readMembers k cs := by
  cases k with
  | zero => rfl
  | succ k => rw [readMembers, readMembers, skipSpace_skipSpace]

mutual

theorem value_of_readValue : ∀ {k : Nat} {cs tl : List Char} {v : Json}, readValue k cs = .ok (v, tl) → Value cs v tl
  | 0, _, _, _, h => by cases h
  | k + 1, cs, tl, v, h => by
    unfold readValue at h
    split at h
    · cases h
    · cases h
    · obtain ⟨⟨s, post⟩, hr, hp⟩ := exists_of_bind h
      cases hp
      exact .string (chars_of_readString hr)
    · split at h
      · next hc =>
        cases h
        exact .emptyArray hc
      · obtain ⟨⟨is, post⟩, hr, hp⟩ := exists_of_bind h
        cases hp
        rw [readItems_skipSpace] at hr
        exact .array (items_of_readItems hr)
    · split at h
      · next hc =>
        cases h
        exact .emptyObject hc
      · obtain ⟨⟨ms, post⟩, hr, hp⟩ := exists_of_bind h
        cases hp
        rw [readMembers_skipSpace] at hr
        exact .object (members_of_readMembers hr)
    · exact .scalar h

theorem items_of_readItems : ∀ {k : Nat} {cs tl : List Char} {is : List Json},
    readItems k cs = .ok (is, tl) → Items cs is tl
  | 0, _, _, _, h => by cases h
  | k + 1, cs, tl, is, h => by
    obtain ⟨⟨item, post⟩, hit, h⟩ := exists_of_bind h
    dsimp only at h
    split at h
    · next hc =>
      cases h
      exact .last (value_of_readValue hit) hc
    · next hco =>
      obtain ⟨⟨os, post⟩, ho, hp⟩ := exists_of_bind h
      cases hp
      exact .more (value_of_readValue hit) hco (items_of_readItems ho)
    · cases h

theorem members_of_readMembers : ∀ {k : Nat} {cs tl : List Char} {ms : List (String × Json)},
    readMembers k cs = .ok (ms, tl) → Members cs ms tl
  | 0, _, _, _, h => by cases h
  | k + 1, cs, tl, ms, h => by
    unfold readMembers at h
    split at h
    · next hq =>
      obtain ⟨⟨name, afterName⟩, hn, h⟩ := exists_of_bind h
      dsimp only at h
      split at h
      · next hc =>
        obtain ⟨⟨v, post⟩, hv, h⟩ := exists_of_bind h
        split at h
        · next hcl =>
          cases h
          exact .last hq (chars_of_readString hn) hc (value_of_readValue hv) hcl
        · next hco =>
          obtain ⟨⟨os, post⟩, ho, hp⟩ := exists_of_bind h
          cases hp
          exact .more hq (chars_of_readString hn) hc (value_of_readValue hv) hco (members_of_readMembers ho)
        · cases h
      · cases h
    · cases h

end

/-! ### The budget of steps -/

theorem Value.head (h : Value cs v rest) :
    ∃ c tl, cs = c :: tl ∧ (c = '"' ∨ c = '[' ∨ c = '\x7b' ∨ isScalarLetter c) := by
  cases h with
  | scalar read =>
    obtain ⟨p, rfl, hn, hl, -⟩ := exists_part_of_readScalar read
    obtain ⟨c, p, rfl⟩ := exists_cons_of_ne_nil hn
    exact ⟨c, p ++ rest, rfl, by simp [hl c]⟩
  | _ => exact ⟨_, _, rfl, by simp⟩

theorem readValue_of_scalar (h : readScalar cs = .ok (v, tl)) (k : Nat) : readValue (k + 1) cs = .ok (v, tl) := by
  obtain ⟨p, rfl, hn, hl, -⟩ := exists_part_of_readScalar h
  obtain ⟨c, p, rfl⟩ := exists_cons_of_ne_nil hn
  have hc := hl c (mem_cons_self ..)
  unfold readValue
  split
  case h_6 => exact h
  all_goals
    next heq =>
    cases heq
    try exact absurd hc (by decide)

theorem Items.head_ne {is : List Json} (h : Items cs is tl) (tail : List Char) : skipSpace cs ≠ ']' :: tail := by
  have hit : ∃ v after, Value (skipSpace cs) v after := by
    cases h with
    | last item _ => exact ⟨_, _, item⟩
    | more item _ _ => exact ⟨_, _, item⟩
  obtain ⟨v, after, hv⟩ := hit
  obtain ⟨c, tail', hcs, hc⟩ := hv.head
  intro heq
  obtain ⟨rfl, -⟩ := cons.inj (heq.symm.trans hcs)
  exact absurd hc (by decide)

theorem Members.head_ne {ms : List (String × Json)} (h : Members cs ms tl) (tail : List Char) :
    skipSpace cs ≠ '\x7d' :: tail := by
  intro heq
  cases h with
  | last quote => exact absurd (cons.inj (heq.symm.trans quote)).1 (by decide)
  | more quote => exact absurd (cons.inj (heq.symm.trans quote)).1 (by decide)

mutual

theorem readValue_of_value {cs tl : List Char} {v : Json} : Value cs v tl → ∀ {k : Nat},
    2 * cs.length ≤ k + 1 → readValue k cs = .ok (v, tl)
  | .scalar read, k, hf => by
    have hl := (Value.scalar read).length_lt
    obtain ⟨k, rfl⟩ := Nat.exists_eq_add_one_of_ne_zero (by omega : k ≠ 0)
    exact readValue_of_scalar read k
  | .string chars, k, hf => by
    obtain ⟨k, rfl⟩ := Nat.exists_eq_add_one_of_ne_zero (by simp at hf; omega : k ≠ 0)
    rw [readValue, readString_of_chars chars (Nat.lt_succ_self _)]
    rfl
  | .emptyArray close, k, hf => by
    obtain ⟨k, rfl⟩ := Nat.exists_eq_add_one_of_ne_zero (by simp at hf; omega : k ≠ 0)
    rw [readValue, close]
    rfl
  | .emptyObject close, k, hf => by
    obtain ⟨k, rfl⟩ := Nat.exists_eq_add_one_of_ne_zero (by simp at hf; omega : k ≠ 0)
    rw [readValue, close]
    rfl
  | .array all, k, hf => by
    simp only [length_cons] at hf
    obtain ⟨k, rfl⟩ := Nat.exists_eq_add_one_of_ne_zero (by omega : k ≠ 0)
    rw [readValue]
    split
    · next hc => exact absurd hc (all.head_ne _)
    · rw [readItems_skipSpace, readItems_of_items all (by omega)]
      rfl
  | .object all, k, hf => by
    simp only [length_cons] at hf
    obtain ⟨k, rfl⟩ := Nat.exists_eq_add_one_of_ne_zero (by omega : k ≠ 0)
    rw [readValue]
    split
    · next hc => exact absurd hc (all.head_ne _)
    · rw [readMembers_skipSpace, readMembers_of_members all (by omega)]
      rfl

theorem readItems_of_items {cs tl : List Char} {is : List Json} : Items cs is tl → ∀ {k : Nat},
    2 * cs.length ≤ k → readItems k cs = .ok (is, tl)
  | .last item close, k, hf => by
    have hs := length_skipSpace_le cs
    have hit := item.length_lt
    obtain ⟨k, rfl⟩ := Nat.exists_eq_add_one_of_ne_zero (by omega : k ≠ 0)
    rw [readItems, readValue_of_value item (by omega)]
    simp only [bind, Except.bind, close]
    rfl
  | .more item comma os, k, hf => by
    have hs := length_skipSpace_le cs
    have hit := item.length_lt
    have hc := length_lt_of_skipSpace comma
    obtain ⟨k, rfl⟩ := Nat.exists_eq_add_one_of_ne_zero (by omega : k ≠ 0)
    rw [readItems, readValue_of_value item (by omega)]
    simp only [bind, Except.bind, comma]
    rw [readItems_of_items os (by omega)]
    rfl

theorem readMembers_of_members {cs tl : List Char} {ms : List (String × Json)} :
    Members cs ms tl → ∀ {k : Nat}, 2 * cs.length ≤ k → readMembers k cs = .ok (ms, tl)
  | @Members.last _ _ _ _ value _ _ _ quote chars colon member close, k, hf => by
    have hq := length_lt_of_skipSpace quote
    have hn := chars.length_lt
    have hc := length_lt_of_skipSpace colon
    have hv := length_skipSpace_le value
    obtain ⟨k, rfl⟩ := Nat.exists_eq_add_one_of_ne_zero (by omega : k ≠ 0)
    rw [readMembers, quote]
    simp only [readString_of_chars chars (Nat.lt_succ_self _), bind, Except.bind, colon]
    rw [readValue_of_value member (by omega)]
    simp only [close]
    rfl
  | @Members.more _ _ _ _ value _ _ _ _ _ quote chars colon member comma os, k, hf => by
    have hq := length_lt_of_skipSpace quote
    have hn := chars.length_lt
    have hc := length_lt_of_skipSpace colon
    have hv := length_skipSpace_le value
    have hm := member.length_lt
    have hco := length_lt_of_skipSpace comma
    obtain ⟨k, rfl⟩ := Nat.exists_eq_add_one_of_ne_zero (by omega : k ≠ 0)
    rw [readMembers, quote]
    simp only [readString_of_chars chars (Nat.lt_succ_self _), bind, Except.bind, colon]
    rw [readValue_of_value member (by omega)]
    simp only [comma]
    rw [readMembers_of_members os (by omega)]
    rfl

end

theorem parse_eq_ok_iff {s : String} : parse s = .ok v ↔ ∃ tl, Value (skipSpace s.toList) v tl ∧ skipSpace tl = [] := by
  constructor
  · intro h
    obtain ⟨⟨v', tl⟩, hr, h⟩ := exists_of_bind h
    dsimp only at h
    split at h
    · next he =>
      cases h
      exact ⟨tl, value_of_readValue hr, he⟩
    · cases h
  · rintro ⟨tl, hv, he⟩
    have hr := readValue_of_value hv (Nat.le_add_right _ 2)
    simp only [parse, bind, Except.bind, hr, he]
    rfl

end ProcessForge.Json
