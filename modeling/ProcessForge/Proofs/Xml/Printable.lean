import ProcessForge.Proofs.Xml.ReaderOutput

/-! What is read can be written. A tag that is read has the names that it was read from, so it means the same when it is
    read again with its declarations in front. All trees that are read can be written therefore, and they still can
    when their texts are joined, laid out or tidied. -/

namespace ProcessForge.Xml

open List
open Option (bind_eq_some_iff)

variable {bindings bs : List Namespace} {name : RawName} {ats : List (RawName × String)}

/-! ### Tags that are read -/

theorem bind_short_of_resolveShort (hp : ∀ s ∈ bindings, s.IsProper) {short : Option String}
    {s : Option Namespace} (h : resolveShort bindings short = some s) : s.bind Namespace.short = short := by
  unfold resolveShort at h
  split at h
  · cases h
    rfl
  · split at h
    · next b hf =>
      have hs : b.short = short := by simpa using find?_some hf
      split at h
      · next hu =>
        -- only the default namespace can be taken back
        have hn : b.short.isSome ≠ true := fun hso =>
          (hp b (mem_of_find?_eq_some hf)).uri hso (beq_iff_eq.mp hu)
        cases h
        rw [← hs]
        exact (Option.not_isSome_iff_eq_none.mp hn).symm
      · cases h
        exact hs
    · split at h
      · next hn =>
        cases h
        exact (Option.isNone_iff_eq_none.mp hn).symm
      · cases h

theorem raw_of_declaration? {v : String} {s : Namespace} (h : declaration? name v = some (some s)) :
    (s.raw, s.uri) = (name, v) := by
  obtain ⟨sh, st⟩ := name
  unfold declaration? at h
  split at h
  · next hn =>
    split at h
    · cases h
    · cases h
      simp only [Bool.and_eq_true, Option.isNone_iff_eq_none, beq_iff_eq] at hn
      simp [Namespace.raw, hn]
  · split at h
    · next hn =>
      split at h
      · split at h <;> cases h
      · split at h
        · cases h
        · cases h
          have hn : sh = some "xmlns" := beq_iff_eq.mp hn
          simp [Namespace.raw, hn]
    · cases h

theorem isDeclaration_raw (s : Namespace) : isDeclaration s.raw := by
  obtain ⟨sh, uri⟩ := s
  cases sh <;> simp [isDeclaration, Namespace.raw]

theorem declaration?_of_not_isDeclaration (h : isDeclaration name = false) (v : String) :
    declaration? name v = some none := by
  simp only [isDeclaration, Bool.or_eq_false_iff] at h
  simp [declaration?, h]

theorem declarations?_append {declared : List Namespace} (hd : ∀ s ∈ declared, declaration? s.raw s.uri = some (some s))
    {os : List (RawName × String)} (ho : ∀ a ∈ os, isDeclaration a.1 = false) :
    declarations? ((declared.map fun s => (s.raw, s.uri)) ++ os) = some declared := by
  have hn : os.mapM (fun a => declaration? a.1 a.2) = some (os.map fun _ => none) := by
    induction os with
    | nil => rfl
    | cons a os ih =>
      rw [forall_mem_cons] at ho
      simp only [mapM_cons, declaration?_of_not_isDeclaration ho.1, ih ho.2]
      rfl
  have ha : ((declared.map fun s => (s.raw, s.uri)) ++ os).mapM
      (fun a => declaration? a.1 a.2) = some (declared.map some ++ os.map fun _ => none) := by
    induction declared with
    | nil => exact hn
    | cons s declared ih =>
      rw [forall_mem_cons] at hd
      simp only [map_cons, cons_append, mapM_cons, hd.1, ih hd.2]
      rfl
  change (mapM (fun a : RawName × String => declaration? a.1 a.2) _).map (filterMap id) = _
  rw [ha]
  simp

theorem sublist_of_declarations? : ∀ {ats : List (RawName × String)} {d : List Namespace}, declarations? ats = some d →
    (d.map fun s => (s.raw, s.uri)).Sublist (ats.filter fun a => isDeclaration a.1)
  | [], d, h => by
    cases h
    exact Sublist.refl _
  | (name, v) :: ats, d, h => by
    obtain ⟨fd, hf, rfl⟩ := Option.map_eq_some_iff.mp h
    rw [mapM_cons] at hf
    obtain ⟨f, hfi, hf⟩ := bind_eq_some_iff.mp hf
    obtain ⟨os, ho, hf⟩ := bind_eq_some_iff.mp hf
    cases hf
    have hd : declarations? ats = some (os.filterMap id) := by
      rw [declarations?, ho]
      rfl
    have hr := sublist_of_declarations? hd
    cases f with
    | none =>
      exact hr.trans ((sublist_cons_self _ _).filter _)
    | some s =>
      have hra := raw_of_declaration? hfi
      have hn : isDeclaration name := by
        rw [← (Prod.mk.inj hra).1]
        exact isDeclaration_raw s
      have hc : (some s :: os).filterMap id = s :: os.filterMap id := rfl
      rw [hc, map_cons, hra, filter_cons_of_pos (by exact hn)]
      exact hr.cons_cons _

theorem map_of_mapM {α β : Type} {f : α → Option β} {g : β → α} (hg : ∀ x y, f x = some y → g y = x) :
    ∀ {xs : List α} {ys : List β}, xs.mapM f = some ys → ys.map g = xs
  | [], ys, h => by
    cases h
    rfl
  | x :: xs, ys, h => by
    rw [mapM_cons] at h
    obtain ⟨y, hy, h⟩ := bind_eq_some_iff.mp h
    obtain ⟨os, ho, h⟩ := bind_eq_some_iff.mp h
    cases h
    rw [map_cons, hg x y hy, map_of_mapM hg ho]

theorem raw_of_resolveAttributes? (hp : ∀ s ∈ bindings, s.IsProper) {resolved : List Attribute}
    (h : resolveAttributes? bindings ats = some resolved) :
    (resolved.map fun a => (a.name.raw, a.value)) = ats.filter fun a => !isDeclaration a.1 := by
  refine map_of_mapM (fun ⟨⟨sh, st⟩, v⟩ a ha => ?_) h
  cases sh with
  | none =>
    cases ha
    rfl
  | some sh =>
    obtain ⟨s, hs, ha⟩ := bind_eq_some_iff.mp ha
    cases ha
    simp [Name.raw, bind_short_of_resolveShort hp hs]

theorem allDistinct_iff_nodup {α : Type} [BEq α] [LawfulBEq α] {l : List α} : allDistinct l ↔ l.Nodup := by
  induction l with
  | nil => simp [allDistinct]
  | cons a l ih => simp [allDistinct, ih]

theorem Tag.Comes.isPrintable (hpr : ∀ s ∈ bindings, s.IsProper) {tag : Tag} (hn : name.IsWritten)
    (hat : ∀ a ∈ ats, IsWrittenAttribute a) (h : tag.Comes bindings name ats) : tag.IsPrintable bindings := by
  have hin : ∀ s ∈ tag.declared ++ bindings, s.IsProper :=
    forall_mem_append.mpr ⟨declarations?_isProper h.declared, hpr⟩
  have hr : tag.name.raw = name := by
    simp [Name.raw, bind_short_of_resolveShort hin h.space, h.stem]
  have hd := sublist_of_declarations? h.declared
  have ho := raw_of_resolveAttributes? hin h.resolved
  have hsu : tag.rawAttributes.Sublist
      ((ats.filter fun a => isDeclaration a.1) ++ ats.filter fun a => !isDeclaration a.1) := by
    rw [Tag.rawAttributes, ho]
    exact hd.append (Sublist.refl _)
  have hp := filter_append_perm (fun a : RawName × String => isDeclaration a.1) ats
  have hm : ∀ s ∈ tag.declared, declaration? s.raw s.uri = some (some s) := by
    intro s hs
    obtain ⟨f, hf, heq⟩ := Option.map_eq_some_iff.mp h.declared
    rw [← heq] at hs
    obtain ⟨_, hme, rfl⟩ := mem_filterMap.mp hs
    obtain ⟨⟨name', v⟩, -, ha⟩ := exists_of_mem_mapM hf _ hme
    obtain ⟨rfl, rfl⟩ := Prod.mk.inj (raw_of_declaration? ha)
    exact ha
  have hre : tag.rawAttributes.filter (fun a => !isDeclaration a.1) = ats.filter fun a => !isDeclaration a.1 := by
    rw [Tag.rawAttributes, ho]
    simp [filter_map, isDeclaration_raw, Function.comp_def]
  refine ⟨⟨hr ▸ hn, fun a ha => hat a (hp.subset (hsu.subset ha))⟩, Comes.resolveTag?_eq ?_⟩
  refine ⟨?_, by rw [hr]; exact h.space, rfl, ?_, ?_, h.labels⟩
  · rw [Tag.rawAttributes, ho]
    exact declarations?_append hm (by simp)
  · rw [resolveAttributes?, hre]
    exact h.resolved
  · rw [allDistinct_iff_nodup]
    exact (((hp.map Prod.fst).nodup_iff.mpr (allDistinct_iff_nodup.mp h.names)).sublist (hsu.map Prod.fst))

/-! ### Trees that are read -/

theorem arePrintable_iff {ns : List Node} : ArePrintable bindings ns ↔ ∀ n ∈ ns, n.IsPrintable bindings := by
  induction ns with
  | nil => simp [ArePrintable]
  | cons n ns ih => rw [ArePrintable, forall_mem_cons, ih]

theorem isAllowedText_append {s t : String} (hs : isAllowedText s) (ht : isAllowedText t) : isAllowedText (s ++ t) := by
  simp only [isAllowedText, String.toList_append, all_append, Bool.and_eq_true]
  exact ⟨hs, ht⟩

theorem builds_isPrintable : Builds Token.IsClean fun bs n => n.IsPrintable bs where
  leaf bs t n hc hl := by
    cases t with
    | data cs f =>
      cases hl
      simpa [Node.IsPrintable, isAllowedText, Token.IsClean] using hc
    | verbatim cs =>
      cases hl
      simpa [Node.IsPrintable, isAllowedText, Token.IsClean] using hc
    | comment s =>
      cases hl
      simpa [Node.IsPrintable, Token.IsClean] using hc
    | instruction tgt b =>
      cases hl
      simpa [Node.IsPrintable, Token.IsClean] using hc
    | startTag | endTag => cases hl
  join hs ht := isAllowedText_append hs ht
  tag hc hp hcom := ⟨hcom.isPrintable hp hc.1 hc.2, by simp [ArePrintable]⟩
  element he hco := ⟨he.1, arePrintable_iff.mpr hco⟩

theorem isPrintable_of_readMisc {k : Nat} {cs tl : List Char} {ns : List Node}
    (h : readMisc k cs = some (ns, tl)) : ∀ n ∈ ns, n.isRemark ∧ n.IsPrintable [] := by
  induction k generalizing cs ns with
  | zero => cases h
  | succ k ih =>
    unfold readMisc at h
    split at h
    · obtain ⟨⟨t, rest₁⟩, ht, h⟩ := bind_eq_some_iff.mp h
      obtain ⟨⟨os, rest₂⟩, ho, h⟩ := bind_eq_some_iff.mp h
      have hc := isClean_of_readComment ht
      cases t with
      | comment s =>
        cases h
        exact forall_mem_cons.mpr ⟨⟨rfl, by exact hc⟩, ih ho⟩
      | startTag | endTag | data | verbatim | instruction => cases h
    · obtain ⟨⟨t, rest₁⟩, ht, h⟩ := bind_eq_some_iff.mp h
      obtain ⟨⟨os, rest₂⟩, ho, h⟩ := bind_eq_some_iff.mp h
      have hc := isClean_of_readInstruction ht
      cases t with
      | instruction tgt b =>
        cases h
        exact forall_mem_cons.mpr ⟨⟨rfl, by exact hc⟩, ih ho⟩
      | startTag | endTag | data | verbatim | comment => cases h
    · cases h
      simp

theorem Parsing.isPrintable {dropLayout : Bool} {cs : List Char} {d : Document} (h : Parsing dropLayout cs d) :
    d.root.node.IsPrintable [] ∧ ∀ n ∈ d.preface ++ (d.before ++ d.after), n.isRemark ∧ n.IsPrintable [] := by
  obtain ⟨hr, ho⟩ := h.holds builds_isPrintable (isClean_of_tokenize h.tokenized)
  exact ⟨hr, forall_mem_append.mpr ⟨isPrintable_of_readMisc h.preface, ho⟩⟩

/-! ### Texts that are joined, blank or laid out -/

theorem arePrintable_pushNode {n : Node} {rest : List Node} :
    ArePrintable bindings (pushNode n rest) ↔ n.IsPrintable bindings ∧ ArePrintable bindings rest := by
  unfold pushNode
  split
  · next s t rest => simp [ArePrintable, Node.IsPrintable, isAllowedText, and_assoc]
  · rw [ArePrintable]

mutual

theorem isPrintable_joined : ∀ {bs : List Namespace} {n : Node}, n.joined.IsPrintable bs ↔ n.IsPrintable bs
  | bs, .element tag ns => by
    rw [Node.joined, Node.IsPrintable, Node.IsPrintable, arePrintable_joinedAll]
  | bs, .text s => by rw [Node.joined]; simp
  | bs, .comment s => by rw [Node.joined]; simp
  | bs, .instruction tgt b => by rw [Node.joined]; simp

theorem arePrintable_joinedAll : ∀ {bs : List Namespace} {ns : List Node},
    ArePrintable bs (joinedAll ns) ↔ ArePrintable bs ns
  | bs, [] => by rw [joinedAll]
  | bs, n :: ns => by
    rw [joinedAll, arePrintable_pushNode, isPrintable_joined, arePrintable_joinedAll, ArePrintable]

end

theorem isPrintable_of_isBlank {n : Node} (h : n.isBlank) : n.IsPrintable bindings := by
  cases n with
  | text s =>
    rw [Node.IsPrintable, isAllowedText, all_eq_true]
    intro c hc
    have hs := all_eq_true.mp h c hc
    simp only [isSpace, Bool.or_eq_true, beq_iff_eq] at hs
    rcases hs with ((rfl | rfl) | rfl) | rfl <;> decide
  | element | comment | instruction => cases h

theorem arePrintable_solidAll : ∀ {bs : List Namespace} (ns : List Node),
    ArePrintable bs (solidAll ns) ↔ ArePrintable bs ns
  | bs, [] => by rw [solidAll]
  | bs, .element tag c :: ns => by
    simp [solidAll, Node.isBlank, Node.solid, ArePrintable, Node.IsPrintable, arePrintable_solidAll c,
      arePrintable_solidAll ns]
  | bs, .text s :: ns => by
    rw [solidAll, ArePrintable]
    split
    · next hb => rw [arePrintable_solidAll ns, and_iff_right (isPrintable_of_isBlank hb)]
    · rw [ArePrintable, Node.solid, arePrintable_solidAll ns]
      simp
  | bs, .comment _ :: ns | bs, .instruction _ _ :: ns => by
    simp [solidAll, Node.isBlank, Node.solid, ArePrintable, arePrintable_solidAll ns]

theorem isPrintable_substance {e : Element} : e.substance.node.IsPrintable bindings ↔ e.node.IsPrintable bindings := by
  rw [Element.substance, Element.node, Element.node, Node.IsPrintable, Node.IsPrintable, arePrintable_solidAll,
    arePrintable_joinedAll]

theorem isPrintable_layout (bindings : List Namespace) (l : Nat) :
    (Node.text ("\n" ++ indentation l)).IsPrintable bindings := by
  refine isPrintable_of_isBlank ?_
  simp [Node.isBlank, indentation, isSpace]

mutual

theorem isPrintable_laidOut (l : Nat) : ∀ {bs : List Namespace} {n : Node},
    n.IsPrintable bs → (n.laidOut l).IsPrintable bs
  | bs, .element tag ns, h => by
    rw [Node.laidOut]
    split
    · exact h
    · exact ⟨h.1, arePrintable_laidOutAll l h.2⟩
  | bs, .text s, h => by
    rw [Node.laidOut]
    · exact h
    · simp
  | bs, .comment s, h => by
    rw [Node.laidOut]
    · exact h
    · simp
  | bs, .instruction tgt b, h => by
    rw [Node.laidOut]
    · exact h
    · simp

theorem arePrintable_laidOutAll (l : Nat) : ∀ {bs : List Namespace} {ns : List Node},
    ArePrintable bs ns → ArePrintable bs (laidOutAll l ns)
  | _, [], h => ⟨isPrintable_layout _ _, h⟩
  | _, _ :: _, h => ⟨isPrintable_layout _ _, isPrintable_laidOut _ h.1, arePrintable_laidOutAll l h.2⟩

end

end ProcessForge.Xml
