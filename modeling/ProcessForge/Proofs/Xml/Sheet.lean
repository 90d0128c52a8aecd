import ProcessForge.Proofs.Xml.DocumentType

/-! Whole texts of documents. A sheet is a document whose layout is text. If its parts can be written, its text is read
    as a document with the same root, and taking the blank lines out of the text gives the text of another such
    sheet. -/

namespace ProcessForge.Xml

open List Option

open Text (tidy isInk)

variable {cs rest tl : List Char} {c : Char} {version : String} {node n root : Node} {ns : List Node}

/-! ### The declaration -/

/-- The setting that tells whether a document stands alone. -/
def standaloneChars : Option Bool → List Char
  | none => []
  | some true => ' ' :: ("standalone".toList ++ '=' :: '"' :: (['y', 'e', 's'] ++ ['"']))
  | some false => ' ' :: ("standalone".toList ++ '=' :: '"' :: (['n', 'o'] ++ ['"']))

def declarationChars (version : String) (standalone : Option Bool) : List Char :=
  '<' :: '?' :: 'x' :: 'm' :: 'l' :: ' ' :: ("version".toList ++ '=' :: '"' :: (version.toList ++ '"'
    :: ' ' :: ("encoding".toList ++ '=' :: '"' :: ("UTF-8".toList ++ '"'
      :: (standaloneChars standalone ++ ['?', '>'])))))

/-- The encoding that a declaration names, if it names one. -/
def readEncoding (cs : List Char) : Option (Option String × List Char) :=
  if settingFollows "encoding" cs then
    (readNamedSetting? "encoding" cs).bind fun (name, rest) =>
      if isEncodingName name then some (some (String.ofList name), rest) else none
  else some (none, cs)

/-- What follows the setting that tells whether a document stands alone. -/
def readStandalone (cs : List Char) : Option (List Char) :=
  if settingFollows "standalone" cs then
    (readNamedSetting? "standalone" cs).bind fun (value, rest) =>
      if value == ['y', 'e', 's'] || value == ['n', 'o'] then some rest else none
  else some cs

/-- What follows the closing mark of a declaration. -/
def readMark (cs : List Char) : Option (List Char) :=
  match skipSpace cs with
  | '?' :: '>' :: rest => some rest
  | _ => none

theorem map_readMark (declaration : Declaration) (tl : List Char) : (match skipSpace tl with
    | '?' :: '>' :: tl => some (declaration, tl)
    | _ => none) = (readMark tl).map fun tl => (declaration, tl) := by
  unfold readMark
  split <;> rfl

theorem readDeclarationBody_eq (cs : List Char) : readDeclarationBody cs =
    (readNamedSetting? "version" cs).bind fun (version, tl) => if isReadableVersion version then
      (readEncoding tl).bind fun (encoding, tl) => (readStandalone tl).bind fun tl =>
        (readMark tl).map fun tl => (⟨String.ofList version, encoding⟩, tl) else none := by
  refine Option.bind_congr fun s _ => ?_
  obtain ⟨version, tl⟩ := s
  cases hv : isReadableVersion version with
  | false =>
    simp only [hv]
    rfl
  | true =>
    simp only [hv, Bool.not_true, Bool.false_eq_true, if_false, if_true]
    unfold readEncoding
    split
    · refine Option.bind_congr fun named _ => ?_
      obtain ⟨encoding, tl⟩ := named
      unfold readStandalone
      split
      · exact Option.bind_congr fun tl _ => map_readMark _ tl
      · exact map_readMark _ tl
    · unfold readStandalone
      simp only [bind_eq_bind, bind_some]
      split
      · exact Option.bind_congr fun tl _ => map_readMark _ tl
      · exact map_readMark _ tl

theorem isReadableVersion_of_readDeclaration {declaration : Declaration}
    (h : readDeclaration cs = some (declaration, tl)) : isReadableVersion declaration.version.toList := by
  unfold readDeclaration at h
  split at h
  · split at h
    · rw [readDeclarationBody_eq] at h
      obtain ⟨⟨version, rest₁⟩, -, h⟩ := bind_eq_some_iff.mp h
      simp only at h
      split at h
      · next hv =>
        obtain ⟨⟨encoding, rest₂⟩, -, h⟩ := bind_eq_some_iff.mp h
        obtain ⟨rest₃, -, h⟩ := bind_eq_some_iff.mp h
        obtain ⟨rest₄, -, h⟩ := map_eq_some_iff.mp h
        cases h
        simpa using hv
      · cases h
    · cases h
      decide
  · cases h
    decide

theorem not_mem_of_isReadableVersion (h : isReadableVersion cs) : '"' ∉ cs ∧ '\n' ∉ cs := by
  unfold isReadableVersion at h
  split at h
  · next digits =>
    rw [Bool.and_eq_true] at h
    have hd : ∀ c, c.isDigit = false → c ∉ digits := fun c hc hm => by
      simp [all_eq_true.mp h.2 c hm] at hc
    simp [hd]
  · cases h

theorem readNamedSetting?_append {name : String} (hn : name.toList = c :: cs) (hc : isSpace c = false)
    {v : List Char} (hv : '"' ∉ v) (tl : List Char) :
    readNamedSetting? name (' ' :: (name.toList ++ '=' :: '"' :: (v ++ '"' :: tl))) = some (v, tl) := by
  have hsk : skipSpace (' ' :: (name.toList ++ '=' :: '"' :: (v ++ '"' :: tl)))
      = name.toList ++ '=' :: '"' :: (v ++ '"' :: tl) := by
    rw [skipSpace_space, hn, cons_append, skipSpace_cons hc]
  have hs : readSetting ('=' :: '"' :: (v ++ '"' :: tl)) = some (v, tl) := by
    simp [readSetting, skipSpace_cons (by decide : isSpace '=' = false),
      skipSpace_cons (by decide : isSpace '"' = false), readQuoted, Text.splitFirst?_append hv]
  simp [readNamedSetting?, hsk, Text.dropPrefix?_append, hs]

theorem settingFollows_append {name : String} (hn : name.toList = c :: cs) (hc : isSpace c = false)
    (tl : List Char) : settingFollows name (' ' :: (name.toList ++ tl)) := by
  rw [settingFollows, skipSpace_space, hn, cons_append, skipSpace_cons hc, isPrefixOf_iff_prefix]
  exact prefix_append _ _

theorem readStandalone_append (sa : Option Bool) (rest : List Char) :
    ∃ post, readStandalone (standaloneChars sa ++ '?' :: '>' :: rest) = some post ∧ readMark post = some rest := by
  refine ⟨'?' :: '>' :: rest, ?_, rfl⟩
  have hv : ∀ v : List Char, '"' ∉ v → (v == ['y', 'e', 's'] || v == ['n', 'o']) →
      readStandalone (' ' :: ("standalone".toList ++ '=' :: '"' :: (v ++ '"' :: '?' :: '>' :: rest)))
        = some ('?' :: '>' :: rest) := by
    intro v hq hk
    rw [readStandalone, if_pos (settingFollows_append rfl (by decide) _),
      readNamedSetting?_append rfl (by decide) hq, bind_some]
    simp [hk]
  match sa with
  | none => rfl
  | some true => exact hv ['y', 'e', 's'] (by decide) (by decide)
  | some false => exact hv ['n', 'o'] (by decide) (by decide)

theorem readDeclaration_append (h : isReadableVersion version.toList) (sa : Option Bool) (tl : List Char) :
    readDeclaration (declarationChars version sa ++ tl) = some (⟨version, some "UTF-8"⟩, tl) := by
  obtain ⟨post, ha, hm⟩ := readStandalone_append sa tl
  have he : readEncoding (' ' :: ("encoding".toList ++ '=' :: '"' :: ("UTF-8".toList ++ '"'
      :: (standaloneChars sa ++ '?' :: '>' :: tl))))
      = some (some "UTF-8", standaloneChars sa ++ '?' :: '>' :: tl) := by
    rw [readEncoding, readNamedSetting?_append rfl (by decide) (by decide)]
    rfl
  have hs : declarationChars version sa ++ tl = '<' :: '?' :: 'x' :: 'm' :: 'l' :: ' '
      :: ("version".toList ++ '=' :: '"' :: (version.toList ++ '"' :: ' ' :: ("encoding".toList ++ '=' :: '"'
        :: ("UTF-8".toList ++ '"' :: (standaloneChars sa ++ '?' :: '>' :: tl))))) := by
    simp [declarationChars]
  have hb : ∀ cs : List Char, readDeclaration ('<' :: '?' :: 'x' :: 'm' :: 'l' :: ' ' :: cs)
      = readDeclarationBody (' ' :: cs) := fun cs => rfl
  rw [hs, hb, readDeclarationBody_eq, readNamedSetting?_append rfl (by decide) (not_mem_of_isReadableVersion h).1]
  simp only [h, if_true, he, bind_some, ha, hm, map_some, String.ofList_toList]

/-! ### Comments and instructions around the root -/

/-- Comments and instructions on lines of their own. -/
def remarkChars (nodes : List Node) : List Char := nodes.flatMap fun node => node.chars ++ ['\n']

/-- Comments and instructions that can be written. -/
def AreRemarks (nodes : List Node) : Prop := ∀ node ∈ nodes, node.isRemark = true ∧ node.IsPrintable []

theorem readMisc_append {tail : List Char} (ht : ∀ k, readMisc (k + 1) tail = some ([], tail)) :
    ∀ {ns : List Node}, AreRemarks ns → ∀ k, ns.length < k →
    readMisc k ('\n' :: (remarkChars ns ++ tail)) = some (ns, tail)
  | [], _, k, hf => by
    obtain ⟨k, rfl⟩ := exists_succ_of_lt hf
    have hre := ht k
    exact hre
  | n :: ns, h, k, hf => by
    obtain ⟨k, rfl⟩ := exists_succ_of_lt hf
    have hr := readMisc_append ht (fun b ho => h b (mem_cons_of_mem _ ho)) k (by simpa using hf)
    have hs : '\n' :: (remarkChars (n :: ns) ++ tail) = '\n' :: (n.chars ++ '\n' :: (remarkChars ns ++ tail)) := by
      simp [remarkChars]
    obtain ⟨hrem, hp⟩ := h n mem_cons_self
    rw [hs]
    cases n with
    | comment s =>
      simp [readMisc, skipSpace, isSpace, Node.chars, readComment_append hp, hr]
    | instruction tgt bd =>
      cases bd with
      | none => simp [readMisc, skipSpace, isSpace, Node.chars, readInstruction_none hp, hr]
      | some bd => simp [readMisc, skipSpace, isSpace, Node.chars, readInstruction_some hp, hr]
    | element | text => cases hrem

theorem readMisc_tag (hc : isNameStart c) (cs : List Char) (k : Nat) :
    readMisc (k + 1) ('<' :: c :: cs) = some ([], '<' :: c :: cs) := by
  rw [readMisc]
  split
  · next heq => exact absurd (cons.inj (cons.inj heq).2).1 (ne_of_isNameStart hc (by decide))
  · next heq => exact absurd (cons.inj (cons.inj heq).2).1 (ne_of_isNameStart hc (by decide))
  · rfl

section

variable (ents : Entities) (exp : String → Option (List Token))

theorem spells_newline (hr : tl.head? = some '<' ∨ tl = []) : ∃ f, ∀ back, Spells ents exp tl back →
      Spells ents exp ('\n' :: tl) (.data ['\n'] f :: back) := by
  rcases hr with hr | rfl
  · obtain ⟨post, rfl⟩ := head?_eq_some_iff.mp hr
    refine ⟨Follow.of ('<' :: post), fun back hb => ?_⟩
    have hp : ∀ c ∈ ['\n'], isEscaped c = false := forall_mem_singleton.mpr (by decide)
    have ha : ∀ c ∈ ['\n'], isAllowed c := forall_mem_singleton.mpr (by decide)
    exact hb.run (by simp) hp ha ⟨'<', post, rfl, by decide⟩
  · have hre : readTokens ents exp ['\n'] = some ([.data ['\n'] .other], []) := rfl
    exact ⟨.other, fun back hb => hb.step hre (by simp)⟩

theorem step_newline {b : Builder} (h : b.frames = []) (f : Follow) : b.step true (.data ['\n'] f) = some b := by
  unfold Builder.step
  rw [h]
  rfl

theorem addNode_outside {b : Builder} (h : b.frames = []) (n : Node) :
    (b.addNode n).frames = [] ∧ (b.addNode n).root = b.root := by
  simp only [Builder.addNode, h]
  split <;> exact ⟨rfl, rfl⟩

theorem reads_remark (hr : n.isRemark) (hp : n.IsPrintable []) (tl : List Char) : ∃ t,
    (∀ back, Spells ents exp tl back → Spells ents exp (n.chars ++ tl) (t :: back)) ∧
    ∀ b : Builder, b.step true t = some (b.addNode n) := by
  cases n with
  | comment s =>
    exact ⟨.comment s, fun back hb => hb.comment hp, fun b => rfl⟩
  | instruction tgt bd =>
    exact ⟨.instruction tgt bd, fun back hb => hb.instruction hp, fun b => rfl⟩
  | element | text => cases hr

theorem isText_of_isRemark (h : n.isRemark) : n.isText = false := by
  cases n with
  | text => cases h
  | element | comment | instruction => rfl

theorem isText_of_element? (h : n.element?.isSome) : n.isText = false := by
  cases n with
  | element => rfl
  | text | comment | instruction => cases h

theorem head?_remarkChars_cons (h : AreRemarks (n :: ns)) (tl : List Char) :
    (remarkChars (n :: ns) ++ tl).head? = some '<' := by
  rw [remarkChars, flatMap_cons, append_assoc, append_assoc]
  exact head?_chars (isText_of_isRemark (h n mem_cons_self).1) _

theorem head?_remarkChars_append (h : AreRemarks ns) (hr : tl.head? = some '<') :
    (remarkChars ns ++ tl).head? = some '<' := by
  cases ns with
  | nil => exact hr
  | cons n ns => exact head?_remarkChars_cons h tl

theorem head?_remarkChars (h : AreRemarks ns) (hr : tl.head? = some '<' ∨ tl = []) :
    (remarkChars ns ++ tl).head? = some '<' ∨ remarkChars ns ++ tl = [] := by
  cases ns with
  | nil => exact hr
  | cons n ns => exact .inl (head?_remarkChars_cons h tl)

theorem reads_remarks (hr : tl.head? = some '<' ∨ tl = []) : ∀ {nodes : List Node}, AreRemarks nodes → ∃ ts,
    (∀ back, Spells ents exp tl back → Spells ents exp (remarkChars nodes ++ tl) (ts ++ back)) ∧
    ∀ b : Builder, b.frames = [] → ∃ b', ts.foldlM (Builder.step true) b = some b' ∧ b'.frames = [] ∧ b'.root = b.root
  | [], _ => ⟨[], fun back hba => hba, fun b hb => ⟨b, rfl, hb, rfl⟩⟩
  | n :: nodes, h => by
    have hn : AreRemarks nodes := fun o ho => h o (mem_cons_of_mem _ ho)
    obtain ⟨hre, hp⟩ := h n mem_cons_self
    obtain ⟨ts, hs, hbu⟩ := reads_remarks hr hn
    obtain ⟨f, hne⟩ := spells_newline ents exp (head?_remarkChars hn hr)
    obtain ⟨t, ht, hst⟩ := reads_remark ents exp hre hp ('\n' :: (remarkChars nodes ++ tl))
    refine ⟨t :: .data ['\n'] f :: ts, fun back hba => ?_, fun b hb => ?_⟩
    · have hsh : remarkChars (n :: nodes) ++ tl = n.chars ++ '\n' :: (remarkChars nodes ++ tl) := by
        simp [remarkChars]
      rw [hsh]
      exact ht _ (hne _ (hs back hba))
    · obtain ⟨hf, hro⟩ := addNode_outside hb n
      obtain ⟨b', hfo, hf', hr'⟩ := hbu _ hf
      refine ⟨b', ?_, hf', hr'.trans hro⟩
      rw [foldlM_cons, hst, bind_eq_bind, bind_some, foldlM_cons, step_newline hf, bind_eq_bind, bind_some, hfo]

theorem Kept.exists_element {m : Node} (h : Kept [m] [n]) (hn : n.element?.isSome) : ∃ e : Element, m = e.node := by
  cases h with
  | blank => cases hn
  | leaf hl =>
    rw [hl] at hn
    cases hn
  | @element tag cs => exact ⟨⟨tag, cs⟩, rfl⟩

theorem reads_root (w : Writer) (hr : root.IsPrintable []) (hj : root.IsJoined) (he : root.element?.isSome)
    {pre post : List Node} (hbe : AreRemarks pre) (ha : AreRemarks post) : ∃ ts built e,
    Spells ents exp (remarkChars pre ++ (root.charsBy w ++ '\n' :: remarkChars post)) ts ∧
    build? true ts = some built ∧ built.frames = [] ∧ built.root = some e ∧ Kept [e.node] [root] := by
  have ht := isText_of_element? he
  obtain ⟨f, hf, hb⟩ := reads_remarks ents exp (.inl (head?_charsBy w ht ('\n' :: remarkChars post))) hbe
  obtain ⟨t, hin, hp⟩ := reads_node w ents exp ht hr hj ('\n' :: remarkChars post)
  obtain ⟨back, hba, hbu⟩ := reads_remarks ents exp (.inr rfl) ha
  obtain ⟨fo, hn⟩ := spells_newline ents exp (head?_remarkChars ha (.inr rfl))
  have hen := hba [] (spells_nil ents exp)
  simp only [append_nil] at hen hn
  obtain ⟨b₁, hfo₁, hf₁, hr₁⟩ := hb {} rfl
  obtain ⟨m, hk, hf₂⟩ := hp.places b₁ (by rw [hf₁]; rfl) fun _ _ => hr₁
  obtain ⟨e, rfl⟩ := hk.exists_element he
  have hpl : b₁.place e.node = { b₁ with root := some e } := by
    simp [Builder.place, Element.node, Node.element?, Builder.addElement, hf₁]
  rw [hpl] at hf₂
  obtain ⟨b₂, hf₃, hfr₂, hr₂⟩ := hbu { b₁ with root := some e } hf₁
  refine ⟨f ++ (t ++ .data ['\n'] fo :: back), b₂, e, hf _ (hin _ (hn _ hen)), ?_, hfr₂, hr₂, hk⟩
  simp [build?, hfo₁, hf₂, step_newline (b := { b₁ with root := some e }) hf₁, hf₃]

end

/-! ### Sheets -/

/-- A document whose layout is text. -/
structure Sheet where
  version : String
  standalone : Option Bool
  preface : List Node
  doctype : Option Doctype
  before : List Node
  root : Node
  after : List Node

def Sheet.chars (s : Sheet) : List Char := declarationChars s.version s.standalone ++ '\n' :: (remarkChars s.preface
    ++ (s.doctype.elim [] (fun t => t.render.toList) ++ (remarkChars s.before ++ (s.root.chars
      ++ '\n' :: remarkChars s.after))))

/-- A sheet as a writer writes it. -/
def Sheet.charsBy (w : Writer) (s : Sheet) : List Char := declarationChars s.version s.standalone
    ++ '\n' :: (remarkChars s.preface ++ (s.doctype.elim [] (fun t => t.render.toList) ++ (remarkChars s.before
      ++ (s.root.charsBy w ++ '\n' :: remarkChars s.after))))

theorem Sheet.charsBy_printed (s : Sheet) : s.charsBy printed = s.chars := by
  rw [Sheet.charsBy, Sheet.chars, Xml.charsBy_printed]

/-- A sheet whose parts can be written. -/
structure Sheet.IsPrintable (s : Sheet) : Prop where
  version : isReadableVersion s.version.toList = true
  preface : AreRemarks s.preface
  doctype : ∀ t, s.doctype = some t → t.IsWritten
  before : AreRemarks s.before
  root : s.root.IsPrintable []
  joined : s.root.IsJoined
  isElement : s.root.element?.isSome = true
  after : AreRemarks s.after

theorem exists_expand (depth : Nat) (ents : Entities) : ∃ exp, ∀ cs : List Char,
    tokenize (depth + 1) ents cs = readAll ents exp (cs.length + 1) cs := ⟨_, fun _ => rfl⟩

theorem exists_isNameStart (w : Writer) (hr : root.IsPrintable []) (he : root.element?.isSome) :
    ∃ c cs, root.charsBy w = '<' :: c :: cs ∧ isNameStart c := by
  cases root with
  | element tag ns =>
    obtain ⟨c, cs, hcs, hc⟩ := exists_of_isWritten hr.1.written.name
    exact ⟨c, _, by rw [Node.charsBy, Tag.charsBy, hcs]; rfl, hc⟩
  | text | comment | instruction => cases he

theorem tokenize_root (w : Writer) (hro : root.IsPrintable []) (hj : root.IsJoined) (he : root.element?.isSome)
    {pre post : List Node} (hb : AreRemarks pre) (ha : AreRemarks post) (ents : Entities) {t : List Char}
    (hin : t = remarkChars pre ++ (root.charsBy w ++ '\n' :: remarkChars post) ∨
      t = '\n' :: (remarkChars pre ++ (root.charsBy w ++ '\n' :: remarkChars post))) :
    ∃ ts built e, tokenize (ents.length + 1) ents t = some ts ∧
      build? true ts = some built ∧ built.frames = [] ∧ built.root = some e ∧ Kept [e.node] [root] := by
  obtain ⟨exp, hex⟩ := exists_expand ents.length ents
  obtain ⟨ts, built, e, hs, hbu, hr⟩ := reads_root ents exp w hro hj he hb ha
  rcases hin with rfl | rfl
  · exact ⟨ts, built, e, by rw [hex, hs _ (Nat.lt_succ_self _)], hbu, hr⟩
  · have hh := head?_charsBy w (isText_of_element? he) ('\n' :: remarkChars post)
    obtain ⟨f, hn⟩ := spells_newline ents exp (head?_remarkChars hb (.inl hh))
    refine ⟨.data ['\n'] f :: ts, built, e, ?_, ?_, hr⟩
    · rw [hex, hn _ hs _ (Nat.lt_succ_self _)]
    · exact hbu

theorem dropPrefix?_doctype_tag (hc : isNameStart c) (cs : List Char) :
    Text.dropPrefix? "<!DOCTYPE".toList ('<' :: c :: cs) = none := by
  have hn : ('!' == c) = false := beq_eq_false_iff_ne.mpr (ne_of_isNameStart hc (by decide)).symm
  simp [Text.dropPrefix?, hn]

theorem exists_render_doctype (t : Doctype) : ∃ cs, t.render.toList = '<' :: '!' :: 'D' :: cs := by
  unfold Doctype.render
  simp only [String.toList_append, append_assoc]
  exact ⟨_, rfl⟩

theorem readMisc_doctype (t : Doctype) (tl : List Char) (k : Nat) :
    readMisc (k + 1) (t.render.toList ++ tl) = some ([], t.render.toList ++ tl) := by
  obtain ⟨cs, hc⟩ := exists_render_doctype t
  rw [hc]
  rfl

theorem remarks_length_lt (ns : List Node) (tl : List Char) :
    ns.length < ('\n' :: (remarkChars ns ++ tl)).length + 1 := by
  have := length_le_flatMap (f := fun n : Node => n.chars ++ ['\n']) (by simp) ns
  simp only [remarkChars, length_cons, length_append] at this ⊢
  omega

theorem Sheet.IsPrintable.parseChars_by (w : Writer) {s : Sheet} (h : s.IsPrintable) :
    ∃ d, parseChars true (s.charsBy w) = some d ∧ Kept [d.root.node] [s.root] := by
  obtain ⟨version, sa, preface, doctype, pre, root, post⟩ := s
  have hd := readDeclaration_append h.version sa
  cases doctype with
  | none =>
    -- all comments in front of the root are read in one go
    have hre : AreRemarks (preface ++ pre) := forall_mem_append.mpr ⟨h.preface, h.before⟩
    have hs : Sheet.charsBy w ⟨version, sa, preface, none, pre, root, post⟩
        = declarationChars version sa ++ '\n' :: (remarkChars (preface ++ pre)
          ++ (root.charsBy w ++ '\n' :: remarkChars post)) := by
      simp [Sheet.charsBy, remarkChars]
    obtain ⟨c, cs, hch, hc⟩ := exists_isNameStart w h.root h.isElement
    have hta : ∀ k, readMisc (k + 1) (root.charsBy w ++ '\n' :: remarkChars post)
        = some ([], root.charsBy w ++ '\n' :: remarkChars post) := by
      rw [hch]
      exact readMisc_tag hc _
    have hty : readType (root.charsBy w ++ '\n' :: remarkChars post)
        = some (none, [], root.charsBy w ++ '\n' :: remarkChars post) := by
      rw [readType, hch, cons_append, cons_append, dropPrefix?_doctype_tag hc]
    have hn : AreRemarks [] := by simp [AreRemarks]
    obtain ⟨ts, built, e, ht, hb, hf, hr, hk⟩ := tokenize_root w h.root h.joined h.isElement hn h.after [] (.inl rfl)
    rw [hs]
    refine ⟨⟨version, preface ++ pre, none, built.before.reverse, e, built.after.reverse, 0⟩,
      Parsing.parseChars_eq ⟨_, _, built, hd _, ?_, hty, ht, hb, hr, hf, rfl, rfl, rfl⟩,
      hk⟩
    exact readMisc_append hta hre _ (remarks_length_lt _ _)
  | some t =>
    obtain ⟨t', ents, hty⟩ := readType_append (h.doctype t rfl)
      (remarkChars pre ++ (root.charsBy w ++ '\n' :: remarkChars post))
    obtain ⟨ts, built, e, ht, hb, hf, hr, hk⟩ := tokenize_root w h.root h.joined h.isElement
      h.before h.after ents (.inr rfl)
    refine ⟨⟨version, preface, some t', built.before.reverse, e, built.after.reverse, 0⟩,
      Parsing.parseChars_eq ⟨_, _, built, hd _, ?_, hty, ht, hb, hr, hf, rfl, rfl, rfl⟩,
      hk⟩
    exact readMisc_append (readMisc_doctype t _) h.preface _ (remarks_length_lt _ _)

theorem Sheet.IsPrintable.parseChars_eq {s : Sheet} (h : s.IsPrintable) :
    ∃ d, parseChars true s.chars = some d ∧ Kept [d.root.node] [s.root] := by
  rw [← s.charsBy_printed]
  exact h.parseChars_by printed

theorem parse?_of_declaration (hv : isReadableVersion version.toList) (sa : Option Bool) (tl : List Char) :
    parse? (String.ofList (declarationChars version sa ++ tl))
      = parseChars true (declarationChars version sa ++ tl) := by
  have he : declaredEncoding? (declarationChars version sa ++ tl) = some .utf8 := by
    rw [declaredEncoding?, readDeclaration_append hv]
    rfl
  unfold parse?
  rw [String.toList_ofList, he]
  rfl

/-! ### Blank lines of sheets -/

theorem not_mem_declarationChars (h : isReadableVersion version.toList) (standalone : Option Bool) :
    '\n' ∉ declarationChars version standalone := by
  have hv := (not_mem_of_isReadableVersion h).2
  have hs : '\n' ∉ standaloneChars standalone := by
    match standalone with
    | none => decide
    | some true => decide
    | some false => decide
  simp [declarationChars, hv, hs]

theorem tidy_newline_append (h : cs.head? = some '<' ∨ cs = []) : tidy ('\n' :: cs) = '\n' :: tidy cs := by
  rcases h with h | rfl
  · obtain ⟨post, rfl⟩ := head?_eq_some_iff.mp h
    exact tidy_newline_cons (by decide) post
  · rfl

theorem isRemark_mapText (f : String → String) (n : Node) : (n.mapText f).isRemark = n.isRemark := by
  cases n <;> simp [Node.mapText, Node.isRemark]

theorem AreRemarks.tidied (h : AreRemarks ns) : AreRemarks (ns.map (Node.mapText tidyText)) := by
  intro n hn
  obtain ⟨n, hm, rfl⟩ := mem_map.mp hn
  rw [isRemark_mapText]
  exact ⟨(h n hm).1, isPrintable_mapText_tidyText (h n hm).2⟩

theorem tidy_remarkChars (hre : tl.head? = some '<' ∨ tl = []) : ∀ {nodes : List Node}, AreRemarks nodes →
    tidy (remarkChars nodes ++ tl) = remarkChars (nodes.map (Node.mapText tidyText)) ++ tidy tl
  | [], _ => rfl
  | n :: nodes, h => by
    have hn : AreRemarks nodes := fun b ho => h b (mem_cons_of_mem _ ho)
    obtain ⟨hr, hp⟩ := h n mem_cons_self
    have hj : n.IsJoined := by
      cases n with
      | comment | instruction => simp [Node.IsJoined]
      | element | text => cases hr
    have ha := tidy_chars printed (isText_of_isRemark hr) hp hj ('\n' :: (remarkChars nodes ++ tl))
    rw [charsBy_printed, charsBy_printed, tidy_newline_append (head?_remarkChars hn hre), tidy_remarkChars hre hn] at ha
    simpa [remarkChars] using ha

theorem exists_tidy_type {doctype : Option Doctype} (h : ∀ t, doctype = some t → t.IsWritten)
    (hr : rest.head? = some '<') : ∃ doctype' : Option Doctype, (∀ t, doctype' = some t → t.IsWritten) ∧
    (doctype.elim [] (fun t => t.render.toList) ++ rest).head? = some '<' ∧
    tidy (doctype.elim [] (fun t => t.render.toList) ++ rest)
      = doctype'.elim [] (fun t => t.render.toList) ++ tidy rest := by
  cases doctype with
  | none => exact ⟨none, by simp, hr, rfl⟩
  | some t =>
    obtain ⟨t', ht', ht⟩ := exists_tidy_doctype (h t rfl)
    obtain ⟨post, rfl⟩ := head?_eq_some_iff.mp hr
    obtain ⟨cs, hc⟩ := exists_render_doctype t
    refine ⟨some t', fun u hu => some.inj hu ▸ ht', ?_, ht (by decide) post⟩
    rw [elim_some, hc]
    rfl

theorem Sheet.IsPrintable.exists_tidy_by (w : Writer) {s : Sheet} (h : s.IsPrintable) :
    ∃ s' : Sheet, s'.IsPrintable ∧ s'.root = s.root.mapText tidyText ∧ tidy (s.charsBy w) = s'.charsBy w := by
  obtain ⟨version, sa, preface, doctype, pre, root, post⟩ := s
  have ht : root.isText = false := isText_of_element? h.isElement
  have hin : tidy (remarkChars pre ++ (root.charsBy w ++ '\n' :: remarkChars post))
      = remarkChars (pre.map (Node.mapText tidyText)) ++ ((root.mapText tidyText).charsBy w
        ++ '\n' :: remarkChars (post.map (Node.mapText tidyText))) := by
    have ha := tidy_remarkChars (.inr rfl) h.after
    have hn := tidy_newline_append (head?_remarkChars h.after (.inr rfl))
    simp only [append_nil] at ha hn
    rw [tidy_remarkChars (.inl (head?_charsBy w ht _)) h.before, tidy_chars w ht h.root h.joined, hn, ha]
    simp [tidy]
  obtain ⟨doctype', hd, hh, hty⟩ := exists_tidy_type h.doctype
    (head?_remarkChars_append h.before (head?_charsBy w ht ('\n' :: remarkChars post)))
  refine ⟨⟨version, sa, preface.map (Node.mapText tidyText), doctype', pre.map (Node.mapText tidyText),
    root.mapText tidyText, post.map (Node.mapText tidyText)⟩, ⟨h.version, h.preface.tidied, hd, h.before.tidied,
    isPrintable_mapText_tidyText h.root, isJoined_mapText tidyText h.joined, ?_, h.after.tidied⟩, rfl, ?_⟩
  · have he := h.isElement
    cases root with
    | element => simp [Node.mapText, Node.element?]
    | text | comment | instruction => cases he
  · have hp := head?_remarkChars h.preface (.inl hh)
    rw [Sheet.charsBy, Text.tidy_append (not_mem_declarationChars h.version sa), tidy_newline_append hp,
      tidy_remarkChars (.inl hh) h.preface, hty, hin]
    rfl

theorem Sheet.IsPrintable.exists_tidy {s : Sheet} (h : s.IsPrintable) :
    ∃ s' : Sheet, s'.IsPrintable ∧ s'.root = s.root.mapText tidyText ∧ tidy s.chars = s'.chars := by
  obtain ⟨s', hs, hr, ht⟩ := h.exists_tidy_by printed
  rw [s.charsBy_printed, s'.charsBy_printed] at ht
  exact ⟨s', hs, hr, ht⟩

end ProcessForge.Xml
