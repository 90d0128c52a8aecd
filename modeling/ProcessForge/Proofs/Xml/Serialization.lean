import ProcessForge.Proofs.Xml.Sheet

/-! Serialization loses no content. The text of a document is written with its layout and then freed of blank lines. If
    the text with all its lines is read as the document, the final text is read as the document with its own texts
    freed of blank lines, as long as it has no line ends other than line feeds. -/

namespace ProcessForge.Xml

open List
open Element (tag)

open Text (tidy)

variable {s : String} {standalone sa : Option Bool}

/-! ### The text of a document -/

/-- The document type that is written: one that does not name the root is left out. -/
def Document.writtenDoctype (d : Document) : Option Doctype := d.doctype.filter fun t => t.name == d.root.tag.name.stem

def Document.sheet (d : Document) (standalone : Option Bool) : Sheet :=
  ⟨d.version, standalone, d.preface, d.writtenDoctype, d.before, (d.root.node.laidOut 0).joined, d.after⟩

theorem toList_render_remark {n : Node} (h : n.isRemark) : (n.render true 0).toList = n.chars := by
  rw [toList_render_lined]
  cases n with
  | comment | instruction => simp [Node.laidOut]
  | element | text => cases h

theorem flatMap_render {ns : List Node} (h : ∀ n ∈ ns, n.isRemark) (lead tl : String) :
    (String.join (ns.map fun n => lead ++ n.render true 0 ++ tl)).toList
      = ns.flatMap fun n => lead.toList ++ n.chars ++ tl.toList := by
  induction ns with
  | nil => rfl
  | cons n ns ih =>
    rw [forall_mem_cons] at h
    have hr := ih h.2
    rw [String.toList_join] at hr ⊢
    rw [map_cons, flatMap_cons, hr]
    simp [toList_render_remark h.1]

/-- Line feeds behind all nodes and one in front are line feeds in front of all nodes and one at the end. -/
theorem newline_remarkChars (ns : List Node) :
    '\n' :: remarkChars ns = (ns.flatMap fun n => '\n' :: n.chars) ++ ['\n'] := by
  induction ns with
  | nil => rfl
  | cons n ns ih =>
    rw [flatMap_cons, append_assoc, ← ih]
    simp [remarkChars]

theorem toList_writtenDoctype (d : Document) : (match d.doctype with
    | some t => if t.name == d.root.tag.name.stem then t.render else ""
    | none => "").toList = d.writtenDoctype.elim [] fun t => t.render.toList := by
  unfold Document.writtenDoctype
  cases d.doctype with
  | none => rfl
  | some t =>
    simp only [Option.filter_some]
    split <;> rfl

theorem toList_declaration (version : String) (sa : Option Bool) (rest : List Char) :
    ("<?xml version=\"" ++ version ++ "\" encoding=\"UTF-8\"" ++ (match sa with
      | none => ""
      | some true => " standalone=\"yes\""
      | some false => " standalone=\"no\"") ++ "?>\n").toList ++ rest
    = declarationChars version sa ++ '\n' :: rest := by
  rcases sa with _ | _ | _ <;> simp [declarationChars, standaloneChars]

variable {d : Document}

theorem toList_renderRaw (h : ∀ n ∈ d.preface ++ (d.before ++ d.after), n.isRemark)
    (sa : Option Bool) : (d.renderRaw sa).toList = (d.sheet sa).chars := by
  rw [forall_mem_append, forall_mem_append] at h
  have hr : ∀ nodes : List Node, (∀ n ∈ nodes, n.isRemark) →
      (String.join (nodes.map fun n => n.render true 0 ++ "\n")).toList = remarkChars nodes := by
    intro nodes hn
    simpa [remarkChars] using flatMap_render hn "" "\n"
  have ha : (String.join (d.after.map fun n => "\n" ++ n.render true 0)).toList ++ "\n".toList
      = '\n' :: remarkChars d.after := by
    rw [newline_remarkChars]
    simpa using flatMap_render h.2.2 "\n" ""
  have hro : (d.root.node.render true 0).toList = (d.root.node.laidOut 0).joined.chars := by
    rw [toList_render_lined, chars_joined]
  have hd := toList_declaration d.version sa
  unfold Document.renderRaw
  simp only [String.toList_append, append_assoc, hr _ h.1, hr _ h.2.1, ha, hro] at hd ⊢
  exact (hd _).trans (congrArg (fun type => declarationChars d.version sa
    ++ '\n' :: (remarkChars d.preface ++ (type ++ (remarkChars d.before
      ++ ((d.root.node.laidOut 0).joined.chars ++ '\n' :: remarkChars d.after))))) (toList_writtenDoctype d))

theorem renderRaw_eq (h : ∀ n ∈ d.preface ++ (d.before ++ d.after), n.isRemark)
    (sa : Option Bool) : d.renderRaw sa = String.ofList (d.sheet sa).chars := by
  rw [← toList_renderRaw h, String.ofList_toList]

theorem exists_laidOut (l : Nat) (e : Element) : ∃ content, (e.node.laidOut l).joined = .element e.tag content := by
  rw [Element.node, Node.laidOut]
  split
  · exact ⟨_, by rw [Node.joined]⟩
  · exact ⟨_, by rw [Node.joined]⟩

theorem Sheet.exists_chars (s : Sheet) : ∃ cs, s.chars = '<' :: cs ++ ['\n'] := by
  rw [Sheet.chars, newline_remarkChars]
  simp only [← append_assoc, ← cons_append]
  exact ⟨_, rfl⟩

/-! ### Elements and their order -/

theorem tags_pushNode (n : Node) (ns : List Node) : (elementsBelow (pushNode n ns)).map Element.tag
      = n.elements.map Element.tag ++ (elementsBelow ns).map Element.tag := by
  rw [← map_append]
  unfold pushNode
  split
  · simp [elementsBelow, Node.elements]
  · rfl

theorem tags_joinedAll : ∀ ns : List Node,
    (elementsBelow (joinedAll ns)).map Element.tag = (elementsBelow ns).map Element.tag
  | [] => by rw [joinedAll]
  | .element tag c :: ns => by
    simp [joinedAll, tags_pushNode, Node.joined, tags_joinedAll c, tags_joinedAll ns]
  | .text _ :: ns | .comment _ :: ns | .instruction _ _ :: ns => by
    simp [joinedAll, tags_pushNode, Node.joined, tags_joinedAll ns]

theorem tags_solidAll : ∀ ns : List Node,
    (elementsBelow (solidAll ns)).map Element.tag = (elementsBelow ns).map Element.tag
  | [] => by rw [solidAll]
  | .element tag c :: ns => by simp [solidAll, Node.isBlank, Node.solid, tags_solidAll c, tags_solidAll ns]
  | .comment _ :: ns | .instruction _ _ :: ns => by simp [solidAll, Node.isBlank, Node.solid, tags_solidAll ns]
  | .text _ :: ns => by
    rw [solidAll]
    split <;> exact tags_solidAll ns

theorem tags_mapTextAll (f : String → String) : ∀ ns : List Node,
    (elementsBelow (mapTextAll f ns)).map Element.tag = (elementsBelow ns).map Element.tag
  | [] => by rw [mapTextAll]
  | .element tag c :: ns => by simp [mapTextAll, Node.mapText, tags_mapTextAll f c, tags_mapTextAll f ns]
  | .text _ :: ns | .comment _ :: ns | .instruction _ _ :: ns => tags_mapTextAll f ns

theorem tags_substance (e : Element) : e.substance.elements.map Element.tag = e.elements.map Element.tag := by
  rw [Element.elements, Element.elements, map_cons, map_cons, Element.substance, tags_solidAll, tags_joinedAll]

theorem tags_tidied (e : Element) : e.tidied.elements.map Element.tag = e.elements.map Element.tag := by
  rw [Element.elements, Element.elements, map_cons, map_cons, Element.tidied, tags_mapTextAll, tags_joinedAll]

/-! ### Documents that are read as they were written -/

/-- A document that was found where another one was written: the same apart from layout. -/
structure Document.AgreesWith (found d : Document) : Prop where
  version : found.version = d.version
  doctype : found.doctype = d.writtenDoctype
  remarks : found.preface ++ found.before = d.preface ++ d.before
  root : found.root.substance = d.root.substance
  after : found.after = d.after

theorem exists_parsing_of_parse? (h : parse? s = some d) : ∃ cs, Nonempty (Parsing true cs d) := by
  unfold parse? at h
  split at h
  · split at h
    · exact ⟨_, exists_parsing h⟩
    · obtain ⟨cs, -, h⟩ := Option.bind_eq_some_iff.mp h
      exact ⟨cs, exists_parsing h⟩
    · cases h
  · cases h

section

variable {d found f : Document}

theorem Document.AgreesWith.areRemarks (h : f.AgreesWith d) (hf : AreRemarks (f.preface ++ (f.before ++ f.after))) :
    AreRemarks (d.preface ++ (d.before ++ d.after)) := by
  rw [← append_assoc, ← h.remarks, ← h.after, append_assoc]
  exact hf

theorem Document.AgreesWith.isPrintable_root (h : f.AgreesWith d) (hf : f.root.node.IsPrintable []) :
    d.root.node.IsPrintable [] := by
  rw [← isPrintable_substance, ← h.root, isPrintable_substance]
  exact hf

theorem Document.AgreesWith.isWritten (h : f.AgreesWith d) {t : Doctype} (ht : d.writtenDoctype = some t)
    (hv : isReadableVersion d.version.toList) (hp : AreRemarks d.preface)
    (hst : isNcName d.root.tag.name.stem) (hr : parseChars true (d.sheet standalone).chars = some f) :
    t.IsWritten := by
  have hn : isNcName t.name := by
    obtain ⟨-, hn⟩ := Option.filter_eq_some_iff.mp ht
    rw [eq_of_beq hn]
    exact hst
  have hs : (d.sheet standalone).chars = declarationChars d.version standalone ++ '\n' :: (remarkChars d.preface
      ++ (t.render.toList ++ (remarkChars d.before ++ ((d.root.node.laidOut 0).joined.chars
        ++ '\n' :: remarkChars d.after)))) := by
    rw [Document.sheet, ht]
    rfl
  rw [hs] at hr
  obtain ⟨p⟩ := exists_parsing hr
  -- the steps in front of the document type can only be taken in one way
  have hd := p.declaration
  rw [readDeclaration_append hv] at hd
  obtain ⟨-, hbo⟩ := Prod.mk.inj (Option.some.inj hd)
  have hf := p.preface
  rw [← hbo, readMisc_append (readMisc_doctype t _) hp _ (remarks_length_lt _ _)] at hf
  obtain ⟨-, hb⟩ := Prod.mk.inj (Option.some.inj hf)
  have hty := p.doctype
  rw [← hb, h.doctype, ht] at hty
  exact isWritten_of_readType hn hty

theorem Document.AgreesWith.isPrintable (h : found.AgreesWith d) (hra : parse? (d.renderRaw standalone) = some found) :
    (d.sheet standalone).IsPrintable := by
  obtain ⟨cs, ⟨p⟩⟩ := exists_parsing_of_parse? hra
  obtain ⟨hfo, hf⟩ := p.isPrintable
  have hr := h.areRemarks hf
  have hro := h.isPrintable_root hfo
  have hv : isReadableVersion d.version.toList := by
    rw [← h.version]
    exact isReadableVersion_of_readDeclaration p.declaration
  -- with a version that can be read, the text is known to be in the usual encoding
  have hre : parseChars true (d.sheet standalone).chars = some found := by
    rw [renderRaw_eq fun n hn => (hr n hn).1] at hra
    exact (parse?_of_declaration hv standalone _).symm.trans hra
  obtain ⟨hp, hr⟩ := forall_mem_append.mp hr
  obtain ⟨hb, ha⟩ := forall_mem_append.mp hr
  obtain ⟨c, hc⟩ := exists_laidOut 0 d.root
  have hs : isNcName d.root.tag.name.stem := hro.1.written.name.stem
  exact {
    version := hv
    preface := hp
    doctype := fun t ht => h.isWritten ht hv hp hs hre
    before := hb
    root := isPrintable_joined.mpr (isPrintable_laidOut 0 hro)
    joined := isJoined_joined _
    isElement := by rw [Document.sheet, hc]; rfl
    after := ha }

theorem Kept.substance_eq {e : Element} {tag : Tag} {c : List Node} (h : Kept [e.node] [.element tag c])
    (hj : AreJoined c) : e.substance = ⟨tag, solidAll c⟩ := by
  cases h with
  | leaf hl => cases hl
  | element hc =>
    rw [Element.substance, joinedAll_of_areJoined (hc.areJoined hj), hc.solidAll_eq]

/-- An element that is read where the layout of another one was written, with tidied texts. -/
theorem substance_of_kept {e root : Element} {l : Nat}
    (h : Kept [e.node] [(root.node.laidOut l).joined.mapText tidyText]) : e.substance = root.tidied.substance := by
  obtain ⟨c, hc⟩ := exists_laidOut l root
  have hj := isJoined_joined (root.node.laidOut l)
  have hs := solid_laidOut keepsBlankTexts_tidyText l root.node
  rw [hc] at hj
  rw [hc, Element.node] at hs
  rw [hc] at h
  have ht : joinedAll root.tidied.content = root.tidied.content :=
    joinedAll_of_areJoined (areJoined_mapTextAll tidyText (areJoined_joinedAll root.content))
  rw [h.substance_eq (areJoined_mapTextAll tidyText hj), Element.substance, ht, (Node.element.inj hs).2]
  rfl

end

theorem render_eq_tidy (h : (d.sheet standalone).IsPrintable)
    (hb : ∀ c ∈ (d.renderRaw standalone).toList, Text.isLineBreak c → c = '\n') :
    d.render standalone = String.ofList (tidy (d.sheet standalone).chars) := by
  have hr : AreRemarks (d.preface ++ (d.before ++ d.after)) :=
    forall_mem_append.mpr ⟨h.preface, forall_mem_append.mpr ⟨h.before, h.after⟩⟩
  have hra := renderRaw_eq (fun n hn => (hr n hn).1) standalone
  obtain ⟨cs, hcs⟩ := (d.sheet standalone).exists_chars
  rw [hra, hcs] at hb
  rw [Document.render, hra, hcs]
  exact Text.dropBlankLines_eq (by decide) fun c hc => hb c (by simp [hc])

/-- A document whose text, with all lines, is read as the document is read from its final text with the same elements
    in the same order, with the same attributes, and with the same texts but for the blank lines inside of them. -/
theorem render_keeps_content {d found : Document} {standalone : Option Bool}
    (hraw : parse? (d.renderRaw standalone) = some found) (hsame : found.AgreesWith d)
    (hbreaks : ∀ c ∈ (d.renderRaw standalone).toList, Text.isLineBreak c = true → c = '\n') :
    ∃ d', parse? (d.render standalone) = some d' ∧ d'.root.substance = d.root.tidied.substance ∧
      d'.root.elements.map Element.tag = d.root.elements.map Element.tag := by
  have hprintable := hsame.isPrintable hraw
  obtain ⟨s, hs, hroot, htidy⟩ := hprintable.exists_tidy
  obtain ⟨d', hread, hkept⟩ := hs.parseChars_eq
  have hsubstance : d'.root.substance = d.root.tidied.substance := by
    rw [hroot] at hkept
    exact substance_of_kept hkept
  refine ⟨d', ?_, hsubstance, ?_⟩
  · rw [render_eq_tidy hprintable hbreaks, htidy]
    exact (parse?_of_declaration hs.version s.standalone _).trans hread
  · calc d'.root.elements.map Element.tag = d'.root.substance.elements.map Element.tag := (tags_substance d'.root).symm
      _ = d.root.tidied.elements.map Element.tag := by rw [hsubstance, tags_substance]
      _ = d.root.elements.map Element.tag := tags_tidied d.root

def noteDocument (s : String) : Document where
  root := ⟨⟨.plain "note", [], [⟨.plain "to", "Ann"⟩]⟩,
    [.element ⟨.plain "body", [], []⟩ [.text s], .element ⟨.plain "end", [], []⟩ []]⟩

theorem renderRaw_noteDocument (s : String) :
    (noteDocument s).renderRaw none = String.ofList ((noteDocument s).sheet none).chars :=
  renderRaw_eq (by simp [noteDocument]) none

theorem parse?_renderRaw_noteDocument
    (h : parseChars true ((noteDocument s).sheet none).chars = some (noteDocument s)) :
    parse? ((noteDocument s).renderRaw none) = some (noteDocument s) := by
  have hv : isReadableVersion "1.0".toList := by decide
  rw [renderRaw_noteDocument]
  exact (parse?_of_declaration hv none _).trans h

theorem render_keeps_content_note : parse? ((noteDocument "x\n\ny").renderRaw none) = some (noteDocument "x\n\ny") ∧
    ∃ d', parse? ((noteDocument "x\n\ny").render none) = some d' ∧ d'.root.substance = (noteDocument "x\ny").root ∧
      d'.root.elements.map Element.tag = (noteDocument "x\n\ny").root.elements.map Element.tag := by
  have hraw : parse? ((noteDocument "x\n\ny").renderRaw none) = some (noteDocument "x\n\ny") :=
    parse?_renderRaw_noteDocument rfl
  have hbreaks : ((noteDocument "x\n\ny").sheet none).chars.all (fun c => !Text.isLineBreak c || c == '\n') = true := by
    decide +kernel
  refine ⟨hraw, render_keeps_content hraw ⟨rfl, rfl, rfl, rfl, rfl⟩ ?_⟩
  rw [renderRaw_noteDocument, String.toList_ofList]
  intro c hc hbreak
  simpa [hbreak] using all_eq_true.mp hbreaks c hc

theorem substance_noteDocument_ne (hs : s ≠ "x\ny") (hso : (noteDocument s).root.substance = (noteDocument s).root) :
    (noteDocument "x\ny").root.substance ≠ (noteDocument s).root.substance := by
  intro hsa
  have hr : (noteDocument "x\ny").root = (noteDocument s).root := hsa.trans hso
  simp only [noteDocument, Element.mk.injEq, cons.injEq, Node.element.injEq, Node.text.injEq] at hr
  exact hs hr.2.1.2.1.symm

/-- A blank line inside of a text is lost, and a line separator becomes a line feed. -/
theorem render_changes_lines : (parse? ((noteDocument "x\n\ny").renderRaw none) = some (noteDocument "x\n\ny") ∧
      parse? ((noteDocument "x\n\ny").render none) = some (noteDocument "x\ny") ∧
      (noteDocument "x\ny").root.substance ≠ (noteDocument "x\n\ny").root.substance) ∧
    parse? ((noteDocument "x\u2028y").renderRaw none) = some (noteDocument "x\u2028y") ∧
    parse? ((noteDocument "x\u2028y").render none) = some (noteDocument "x\ny") ∧
    (noteDocument "x\ny").root.substance ≠ (noteDocument "x\u2028y").root.substance := by
  have hblank : (noteDocument "x\n\ny").render none = (noteDocument "x\ny").renderRaw none := by
    simp only [Document.render, renderRaw_noteDocument]
    decide +kernel
  have hseparator : (noteDocument "x\u2028y").render none = (noteDocument "x\ny").renderRaw none := by
    simp only [Document.render, renderRaw_noteDocument]
    decide +kernel
  have hread := parse?_renderRaw_noteDocument (s := "x\ny") rfl
  rw [hblank, hseparator]
  exact ⟨⟨parse?_renderRaw_noteDocument rfl, hread, substance_noteDocument_ne (by decide) rfl⟩,
    parse?_renderRaw_noteDocument rfl, hread, substance_noteDocument_ne (by decide) rfl⟩

end ProcessForge.Xml
