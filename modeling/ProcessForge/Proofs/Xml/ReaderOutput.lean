import ProcessForge.Proofs.Xml.Rebuilding

/-! What is read can be written. Names, values, comments and instructions that the reader accepts are such that they
    are read again, and so are all tags with their namespaces. -/

namespace ProcessForge.Xml

open List String Text
open Option (bind_eq_some_iff some.inj map_eq_some_iff)

variable {cs tl : List Char} {c a : Char} {k : Nat} {ents : Entities} {t : Token} {tokens ts : List Token}
  {exp : String → Option (List Token)}

/-! ### Names and values -/

theorem isNcName_of_readNcName {s : String} (h : readNcName cs = some (s, tl)) : isNcName s := by
  unfold readNcName at h
  split at h
  · next c cs =>
    split at h
    · next hc =>
      cases h
      simp only [isNcName, toList_ofList, hc, Bool.true_and]
      exact all_eq_true.mpr fun d hd => mem_takeWhile_imp hd
    · cases h
  · cases h

theorem isWritten_of_readName {name : RawName} (h : readName cs = some (name, tl)) : name.IsWritten := by
  obtain ⟨⟨f, rest₁⟩, hr₁, h⟩ := bind_eq_some_iff.mp h
  have hf := isNcName_of_readNcName hr₁
  simp only at h
  split at h
  · obtain ⟨⟨second, rest₂⟩, hr₂, h⟩ := bind_eq_some_iff.mp h
    have hse := isNcName_of_readNcName hr₂
    split at h
    · cases h
    · cases h
      refine ⟨fun s hs => ?_, hse⟩
      cases hs
      exact hf
  · cases h
    refine ⟨fun s hs => ?_, hf⟩
    cases hs

theorem isAllowed_of_builtinEntity? {name : String} (h : builtinEntity? name = some c) : isAllowed c := by
  unfold builtinEntity? at h
  split at h <;> cases h <;> decide

theorem isAllowed_of_allowedPoint? {point : Nat} (h : allowedPoint? point = some c) : isAllowed c := by
  unfold allowedPoint? at h
  split at h
  · next hp =>
    cases h
    simp only [Bool.and_eq_true] at hp
    exact hp.2
  · cases h

theorem isAllowed_of_readReference (h : readReference cs = some (.character c, tl)) : isAllowed c := by
  unfold readReference at h
  split at h
  · obtain ⟨⟨ds, post⟩, -, h⟩ := bind_eq_some_iff.mp h
    obtain ⟨d, hd, h⟩ := bind_eq_some_iff.mp h
    cases h
    obtain ⟨point, -, hp⟩ := bind_eq_some_iff.mp hd
    exact isAllowed_of_allowedPoint? hp
  · obtain ⟨⟨ds, post⟩, -, h⟩ := bind_eq_some_iff.mp h
    obtain ⟨d, hd, h⟩ := bind_eq_some_iff.mp h
    cases h
    obtain ⟨point, -, hp⟩ := bind_eq_some_iff.mp hd
    exact isAllowed_of_allowedPoint? hp
  · obtain ⟨⟨name, post⟩, -, h⟩ := bind_eq_some_iff.mp h
    simp only at h
    split at h
    · split at h
      · next d hd =>
        cases h
        exact isAllowed_of_builtinEntity? hd
      · cases h
    · cases h

variable {v : List Char} {depth : Nat} {b : Char}

theorem isAllowed_of_resolveValue {exp : String → Option (List Char)}
    (he : ∀ name s, exp name = some s → ∀ c ∈ s, isAllowed c)
    (h : resolveValue exp k cs = some v) : ∀ c ∈ v, isAllowed c := by
  induction k, cs using resolveValue.induct generalizing v with
  | case1 => cases h
  | case2 =>
    cases h
    simp
  | case3 k tl ih =>
    obtain ⟨⟨reference, post⟩, hre, h⟩ := bind_eq_some_iff.mp h
    cases reference with
    | character c =>
      change (resolveValue exp k post).bind (fun back => some ([c] ++ back)) = some v at h
      obtain ⟨back, hb, h⟩ := bind_eq_some_iff.mp h
      obtain rfl := some.inj h
      exact forall_mem_cons.mpr ⟨isAllowed_of_readReference hre, ih post hb⟩
    | entity name =>
      obtain ⟨f, hf, h⟩ := bind_eq_some_iff.mp h
      obtain ⟨back, hb, h⟩ := bind_eq_some_iff.mp h
      obtain rfl := some.inj h
      exact forall_mem_append.mpr ⟨he name f hf, ih post hb⟩
  | case4 k tl ih =>
    obtain ⟨back, hb, rfl⟩ := map_eq_some_iff.mp h
    exact forall_mem_cons.mpr ⟨by decide, ih hb⟩
  | case5 k c tl ha hr hc =>
    rw [resolveValue, if_pos hc] at h
    · cases h
    · exact ha
    · exact hr
  | case6 k c tl ha hr hc ih =>
    rw [resolveValue, if_neg hc] at h
    · obtain ⟨back, hb, rfl⟩ := map_eq_some_iff.mp h
      refine forall_mem_cons.mpr ⟨?_, ih hb⟩
      split
      · decide
      · simp only [Bool.or_eq_true, not_or, Bool.not_eq_true', Bool.not_eq_false] at hc
        exact hc.2
    · exact ha
    · exact hr

/-- Values that are read, whatever the entities. -/
theorem isAllowed_of_readValue (h : readValue depth ents cs = some v) : ∀ c ∈ v, isAllowed c := by
  induction depth generalizing ents cs v with
  | zero => cases h
  | succ depth ih =>
    refine isAllowed_of_resolveValue (fun name s hn => ?_) h
    obtain ⟨replacement, -, hr⟩ := bind_eq_some_iff.mp hn
    exact ih hr

theorem isWritten_of_readAttributes {ats : List (RawName × String)} {cl : Bool}
    (h : readAttributes ents k cs = some (ats, cl, tl)) : ∀ a ∈ ats, IsWrittenAttribute a := by
  induction k generalizing cs ats cl tl with
  | zero => cases h
  | succ k ih =>
    unfold readAttributes at h
    split at h
    · cases h
      simp
    · cases h
      simp
    · split at h
      · cases h
      · obtain ⟨⟨name, rest₁⟩, hn, h⟩ := bind_eq_some_iff.mp h
        simp only at h
        split at h
        · obtain ⟨⟨raw, rest₂⟩, -, h⟩ := bind_eq_some_iff.mp h
          obtain ⟨v, hv, h⟩ := bind_eq_some_iff.mp h
          obtain ⟨⟨ms, closed', rest₃⟩, hm, h⟩ := bind_eq_some_iff.mp h
          cases h
          refine forall_mem_cons.mpr ⟨⟨isWritten_of_readName hn, ?_⟩, ih hm⟩
          simpa [isAllowedText] using isAllowed_of_readValue hv
        · cases h

/-! ### Tokens -/

def Token.IsClean : Token → Prop
  | .startTag name attributes _ => name.IsWritten ∧ ∀ a ∈ attributes, IsWrittenAttribute a
  | .endTag _ => True
  | .data cs _ => ∀ c ∈ cs, isAllowed c = true
  | .verbatim cs => ∀ c ∈ cs, isAllowed c = true
  | .comment s => IsWrittenComment s
  | .instruction target body => IsWrittenInstruction target body

theorem isClean_of_readStartTag (h : readStartTag ents cs = some (t, tl)) : t.IsClean := by
  obtain ⟨⟨name, rest₁⟩, hn, h⟩ := bind_eq_some_iff.mp h
  obtain ⟨⟨ats, cl, rest₂⟩, ha, h⟩ := bind_eq_some_iff.mp h
  cases h
  exact ⟨isWritten_of_readName hn, isWritten_of_readAttributes ha⟩

theorem isClean_of_readEndTag (h : readEndTag cs = some (t, tl)) : t.IsClean := by
  obtain ⟨⟨name, rest₁⟩, -, h⟩ := bind_eq_some_iff.mp h
  simp only at h
  split at h
  · cases h
    trivial
  · cases h

/-! ### Line ends -/

theorem mem_unifyNewlines (h : c ∈ unifyNewlines cs) : c = '\n' ∨ c ∈ cs ∧ c ≠ '\r' := by
  induction cs using unifyNewlines.induct with
  | case1 => cases h
  | case2 tl ih =>
    rcases mem_cons.mp h with rfl | h
    · exact .inl rfl
    · exact (ih h).imp_right fun hc => ⟨mem_cons_of_mem _ (mem_cons_of_mem _ hc.1), hc.2⟩
  | case3 tl hr ih =>
    rw [unifyNewlines] at h
    · rcases mem_cons.mp h with rfl | h
      · exact .inl rfl
      · exact (ih h).imp_right fun hc => ⟨mem_cons_of_mem _ hc.1, hc.2⟩
    · exact hr
  | case4 d tl _ hd ih =>
    rw [unifyNewlines_cons hd] at h
    rcases mem_cons.mp h with rfl | h
    · exact .inr ⟨mem_cons_self, hd⟩
    · exact (ih h).imp_right fun hc => ⟨mem_cons_of_mem _ hc.1, hc.2⟩

theorem head?_unifyNewlines (hc : c ≠ '\n') (h : (unifyNewlines cs).head? = some c) : cs.head? = some c := by
  cases cs using unifyNewlines.fun_cases with
  | case1 => exact h
  | case2 tl =>
    exact absurd (some.inj h).symm hc
  | case3 tl hr =>
    rw [unifyNewlines] at h
    · exact absurd (some.inj h).symm hc
    · exact hr
  | case4 d tl _ hd =>
    rw [unifyNewlines_cons hd] at h
    exact h

theorem unifyNewlines_append (hn : a ≠ '\n') (hre : a ≠ '\r') (cs : List Char) :
    unifyNewlines (cs ++ [a]) = unifyNewlines cs ++ [a] := by
  induction cs using unifyNewlines.induct with
  | case1 => exact unifyNewlines_of_not_mem (by simpa using hre.symm)
  | case2 tl ih =>
    rw [cons_append, cons_append, unifyNewlines, unifyNewlines, ih, cons_append]
  | case3 tl hr ih =>
    have ha : ∀ ms, tl ++ [a] = '\n' :: ms → False := by
      intro ms heq
      cases tl with
      | nil => exact hn (cons.inj heq).1
      | cons d tl => exact hr tl (by rw [(cons.inj heq).1])
    rw [cons_append, unifyNewlines, unifyNewlines, ih, cons_append]
    · exact hr
    · exact ha
  | case4 d tl _ hd ih =>
    rw [cons_append, unifyNewlines_cons hd, unifyNewlines_cons hd, ih, cons_append]

theorem pair_of_pair_unifyNewlines (ha : a ≠ '\n') (hb : b ≠ '\n') (h : [a, b] <:+: unifyNewlines cs) :
    [a, b] <:+: cs := by
  induction cs using unifyNewlines.induct with
  | case1 => exact h
  | case2 tl ih =>
    rw [unifyNewlines, infix_cons_iff] at h
    rcases h with hs | hin
    · exact absurd (cons_prefix_cons.mp hs).1 ha
    · exact infix_cons (infix_cons (ih hin))
  | case3 tl hr ih =>
    rw [unifyNewlines, infix_cons_iff] at h
    · rcases h with hs | hin
      · exact absurd (cons_prefix_cons.mp hs).1 ha
      · exact infix_cons (ih hin)
    · exact hr
  | case4 d tl _ hd ih =>
    rw [unifyNewlines_cons hd, infix_cons_iff] at h
    rcases h with hs | hin
    · obtain ⟨rfl, post, haf⟩ := cons_prefix_cons.mp hs
      have hh : (unifyNewlines tl).head? = some b := by
        rw [← haf]
        rfl
      obtain ⟨ms, rfl⟩ := head?_eq_some_iff.mp (head?_unifyNewlines hb hh)
      exact (prefix_append [a, b] ms).isInfix
    · exact infix_cons (ih hin)

/-! ### Comments, instructions and data -/

theorem splitAtPiece?_eq_some {f : List Char} (h : splitAtPiece? [a, b] cs = some (f, tl)) :
    cs = f ++ a :: b :: tl ∧ ¬[a, b] <:+: f ++ [a] := by
  induction cs generalizing f with
  | nil => cases h
  | cons c cs ih =>
    rw [splitAtPiece?] at h
    split at h
    · next post hd =>
      cases h
      exact ⟨by simpa using eq_append_of_dropPrefix? hd, fun hp => by simpa using hp.length_le⟩
    · next hd =>
      obtain ⟨⟨front', tl'⟩, hs, heq⟩ := map_eq_some_iff.mp h
      cases heq
      obtain ⟨rfl, hp⟩ := ih hs
      refine ⟨rfl, fun hin => ?_⟩
      rw [cons_append, infix_cons_iff] at hin
      rcases hin with hst | hin
      · -- the piece would have been found at once
        have hal : c :: (front' ++ [a]) <+: c :: (front' ++ a :: b :: tl) := ⟨b :: tl, by simp⟩
        obtain ⟨post, ha⟩ := hst.trans hal
        rw [← ha, dropPrefix?_append] at hd
        cases hd
      · exact hp hin

theorem isAllowed_of_mem_unifyNewlines (h : ∀ c ∈ cs, isAllowed c) : ∀ c ∈ unifyNewlines cs, isAllowed c := by
  intro c hc
  rcases mem_unifyNewlines hc with rfl | hc
  · decide
  · exact h c hc.1

theorem cleaned?_eq_some {text : List Char} (h : cleaned? cs = some text) :
    text = unifyNewlines cs ∧ isAllowedText (ofList text) ∧ '\r' ∉ text := by
  unfold cleaned? at h
  split at h
  · next ha =>
    cases h
    refine ⟨rfl, ?_, fun hm => ?_⟩
    · rw [isAllowedText, toList_ofList]
      exact all_eq_true.mpr (isAllowed_of_mem_unifyNewlines (all_eq_true.mp ha))
    · rcases mem_unifyNewlines hm with heq | hc
      · exact absurd heq (by decide)
      · exact hc.2 rfl
  · cases h

theorem isClean_of_readComment (h : readComment cs = some (t, tl)) : t.IsClean := by
  obtain ⟨⟨bd, rest₁⟩, hs, h⟩ := bind_eq_some_iff.mp h
  simp only at h
  split at h
  · obtain ⟨s, ht, h⟩ := bind_eq_some_iff.mp h
    cases h
    obtain ⟨rfl, ha, hr⟩ := cleaned?_eq_some ht
    have hd := (splitAtPiece?_eq_some hs).2
    refine ⟨ha, by simpa using hr, fun hp => hd ?_⟩
    rw [toList_ofList, ← unifyNewlines_append (by decide) (by decide)] at hp
    exact pair_of_pair_unifyNewlines (by decide) (by decide) hp
  · cases h

theorem not_isSpace_of_head?_skipSpace (h : (skipSpace cs).head? = some c) : isSpace c = false := by
  have := head?_dropWhile_not isSpace cs
  rw [skipSpace] at h
  simpa [h] using this

theorem isClean_of_readInstruction (h : readInstruction cs = some (t, tl)) : t.IsClean := by
  obtain ⟨⟨tgt, rest₁⟩, ht, h⟩ := bind_eq_some_iff.mp h
  have hn := isNcName_of_readNcName ht
  simp only at h
  split at h
  · cases h
  · next hr =>
    have hr : isReservedTarget tgt = false := by simpa using hr
    split at h
    · cases h
      exact ⟨hn, hr, by simp, by simp, by simp, by simp⟩
    · next c more =>
      split at h
      · obtain ⟨⟨bd, rest₂⟩, hsp, h⟩ := bind_eq_some_iff.mp h
        obtain ⟨tx, hte, h⟩ := bind_eq_some_iff.mp h
        cases h
        obtain ⟨rfl, ha, hre⟩ := cleaned?_eq_some hte
        obtain ⟨hsk, hm⟩ := splitAtPiece?_eq_some hsp
        refine ⟨hn, hr, by simpa using ha, by simpa using hre, ?_, ?_⟩
        · -- the blanks in front of the body were skipped, and a first character that is no blank is not changed
          intro s hs d hd
          obtain rfl := some.inj hs
          rw [toList_ofList] at hd
          cases bd with
          | nil => cases hd
          | cons e bd =>
            have he : isSpace e = false := not_isSpace_of_head?_skipSpace (by rw [hsk]; rfl)
            have hne : e ≠ '\r' := by
              rintro rfl
              exact absurd he (by decide)
            rw [unifyNewlines_cons hne] at hd
            obtain rfl := some.inj hd
            exact he
        · intro s hs hp
          obtain rfl := some.inj hs
          rw [toList_ofList, ← unifyNewlines_append (by decide) (by decide)] at hp
          exact hm (pair_of_pair_unifyNewlines (by decide) (by decide) hp)
      · cases h
    · cases h

theorem isClean_of_mem_dataToken (h : ∀ c ∈ cs, isAllowed c) (f : Follow) : ∀ t ∈ dataToken cs f, t.IsClean := by
  intro t ht
  unfold dataToken at ht
  split at ht
  · cases ht
  · obtain rfl := mem_singleton.mp ht
    exact h

theorem isClean_of_mem_splitData (post : List Char) {run : List Char} (h : ∀ c ∈ run, isAllowed c) :
    ∀ t ∈ splitData post k run, t.IsClean := by
  induction k generalizing run with
  | zero => simp [splitData]
  | succ k ih =>
    have hq : ∀ c ∈ run.takeWhile isQuick, isAllowed c := fun c hc => h c (( takeWhile_prefix _).subset hc)
    have hd : ∀ c ∈ run.dropWhile isQuick, isAllowed c := fun c hc => h c ((dropWhile_suffix _).subset hc)
    intro t ht
    rw [splitData] at ht
    split at ht
    · exact isClean_of_mem_dataToken hq _ t ht
    · next tl heq =>
      have hr : ∀ c ∈ '\n' :: tl, isAllowed c := fun c hc => hd c (by rw [heq]; exact mem_cons_of_mem _ hc)
      rcases mem_append.mp ht with ht | ht
      · exact isClean_of_mem_dataToken hq _ t ht
      · split at ht
        all_goals
          split at ht
          · exact ih hr t ht
          · exact isClean_of_mem_dataToken (isAllowed_of_mem_unifyNewlines hr) _ t ht
    · rcases mem_append.mp ht with ht | ht
      · exact isClean_of_mem_dataToken hq _ t ht
      · exact isClean_of_mem_dataToken (isAllowed_of_mem_unifyNewlines hd) _ t ht

theorem isClean_of_readData (h : readData cs = some (ts, tl)) : ∀ t ∈ ts, t.IsClean := by
  unfold readData at h
  simp only at h
  split at h
  · next hr =>
    cases h
    rw [Bool.and_eq_true] at hr
    exact isClean_of_mem_splitData _ (all_eq_true.mp hr.1)
  · cases h

/-! ### Rows of tokens -/

theorem isClean_of_map {f : Option (Token × List Char)} (hf : ∀ t post, f = some (t, post) → t.IsClean)
    (h : f.map (fun (t, post) => ([t], post)) = some (ts, tl)) : ∀ t ∈ ts, t.IsClean := by
  obtain ⟨⟨t, post⟩, hr, heq⟩ := map_eq_some_iff.mp h
  cases heq
  simpa using hf t _ hr

theorem isClean_of_readTokens (he : ∀ name ts, exp name = some ts → ∀ t ∈ ts, t.IsClean)
    (h : readTokens ents exp cs = some (ts, tl)) : ∀ t ∈ ts, t.IsClean := by
  unfold readTokens at h
  split at h
  · exact isClean_of_map (fun _ _ => isClean_of_readEndTag) h
  · exact isClean_of_map (fun _ _ => isClean_of_readComment) h
  · obtain ⟨⟨bd, post⟩, hs, h⟩ := bind_eq_some_iff.mp h
    obtain ⟨s, ht, h⟩ := bind_eq_some_iff.mp h
    cases h
    have ha := (cleaned?_eq_some ht).2.1
    rw [isAllowedText] at ha
    simpa [Token.IsClean] using ha
  · exact isClean_of_map (fun _ _ => isClean_of_readInstruction) h
  · exact isClean_of_map (fun _ _ => isClean_of_readStartTag) h
  · obtain ⟨⟨reference, post⟩, hr, h⟩ := bind_eq_some_iff.mp h
    cases reference with
    | character c =>
      cases h
      simpa [Token.IsClean] using isAllowed_of_readReference hr
    | entity name =>
      obtain ⟨f, hf, h⟩ := bind_eq_some_iff.mp h
      cases h
      exact he name _ hf
  · exact isClean_of_readData h

theorem isClean_of_readAll (he : ∀ name ts, exp name = some ts → ∀ t ∈ ts, t.IsClean)
    (h : readAll ents exp k cs = some ts) : ∀ t ∈ ts, t.IsClean := by
  induction k generalizing cs ts with
  | zero => cases h
  | succ k ih =>
    cases cs with
    | nil =>
      cases h
      simp
    | cons c cs =>
      obtain ⟨⟨f, tl⟩, hf, h⟩ := bind_eq_some_iff.mp h
      obtain ⟨back, hb, h⟩ := bind_eq_some_iff.mp h
      obtain rfl := some.inj h
      exact forall_mem_append.mpr ⟨isClean_of_readTokens he hf, ih hb⟩

/-- All tokens of a text, whatever the entities. -/
theorem isClean_of_tokenize (h : tokenize depth ents cs = some tokens) : ∀ t ∈ tokens, t.IsClean := by
  induction depth generalizing ents cs tokens with
  | zero => cases h
  | succ depth ih =>
    refine isClean_of_readAll (fun name os hn => ?_) h
    obtain ⟨replacement, -, hr⟩ := bind_eq_some_iff.mp hn
    exact ih (Option.filter_eq_some_iff.mp hr).1

end ProcessForge.Xml
