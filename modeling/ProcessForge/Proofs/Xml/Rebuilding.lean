import ProcessForge.Proofs.Xml.Rereading
import ProcessForge.Proofs.Xml.WellBound

/-! The tree of what is written. A tree that can be written, with its texts joined, is built again from the tokens it
    spells, except that blank texts may be missing. -/

namespace ProcessForge.Xml

open List Bool
open String (ofList)

variable {ms ns : List Node} {tokens ts : List Token} {s : List Char} {c : Char} {bindings bs : List Namespace}

/-! ### Trees that can be written -/

/-- A tag that can be written, and that means the same when it is read again. -/
structure Tag.IsPrintable (bindings : List Namespace) (tag : Tag) : Prop where
  written : tag.IsWritten
  rereads : resolveTag? bindings tag.name.raw tag.rawAttributes = some (tag, tag.declared ++ bindings)

mutual

/-- A node that can be written where some namespaces are bound. -/
def Node.IsPrintable (bindings : List Namespace) : Node → Prop
  | .element tag content => tag.IsPrintable bindings ∧ ArePrintable (tag.declared ++ bindings) content
  | .text s => isAllowedText s = true
  | .comment s => IsWrittenComment s
  | .instruction target body => IsWrittenInstruction target body

def ArePrintable (bindings : List Namespace) : List Node → Prop
  | [] => True
  | node :: rest => node.IsPrintable bindings ∧ ArePrintable bindings rest

end

/-- A content as it is read: some blank texts of what was written may be missing. -/
inductive Kept : List Node → List Node → Prop
  | nil : Kept [] []
  | blank {s : String} {ms ns : List Node} : s.toList.all isSpace = true → Kept ms ns → Kept ms (.text s :: ns)
  | leaf {n : Node} {ms ns : List Node} : n.element? = none → Kept ms ns → Kept (n :: ms) (n :: ns)
  | element {tag : Tag} {cs ds ms ns : List Node} : Kept cs ds → Kept ms ns →
      Kept (.element tag cs :: ms) (.element tag ds :: ns)

theorem Kept.solidAll_eq (h : Kept ms ns) : solidAll ms = solidAll ns := by
  induction h with
  | nil => rfl
  | blank hs _ ih => rw [ih, solidAll, if_pos (by exact hs)]
  | leaf hn _ ih => rw [solidAll, solidAll, ih]
  | element _ _ ihc ih => simp [solidAll, Node.isBlank, Node.solid, ihc, ih]

theorem Kept.startsWithText_eq (h : Kept ms ns) (hn : startsWithText ns = false) : startsWithText ms = false := by
  cases h with
  | nil => rfl
  | blank => cases hn
  | leaf => exact hn
  | element => rfl

theorem Kept.areJoined (h : Kept ms ns) (hn : AreJoined ns) : AreJoined ms := by
  induction h with
  | nil => exact hn
  | blank _ _ ih =>
    exact ih hn.2.2
  | leaf _ hr ih =>
    exact ⟨hn.1, fun ht => hr.startsWithText_eq (hn.2.1 ht), ih hn.2.2⟩
  | element _ _ ihc ih =>
    exact ⟨ihc hn.1, by simp [Node.isText], ih hn.2.2⟩

theorem Kept.append {ms' ns' : List Node} (h : Kept ms ns) (h' : Kept ms' ns') : Kept (ms ++ ms') (ns ++ ns') := by
  induction h with
  | nil => exact h'
  | blank hs _ ih => exact .blank hs ih
  | leaf hn _ ih => exact .leaf hn ih
  | element hc _ _ ih => exact .element hc ih

/-! ### Texts -/

/-- A builder with one more open element, its content and what it does with blanks. -/
def Builder.opened (b : Builder) (frame : Frame) (content : List Node) (spacing : Spacing) : Builder :=
  { b with frames := { frame with content := content, spacing := spacing } :: b.frames }

theorem step_verbatim (b : Builder) (fr : Frame) (ks : List Node) (sg : Spacing) (cs : List Char) :
    (b.opened fr ks sg).step true (.verbatim cs) = some (b.opened fr (pushText (ofList cs) ks) sg) := rfl

theorem step_data (b : Builder) (fr : Frame) (content : List Node) (spacing : Spacing) (cs : List Char)
    (f : Follow) : ∃ spacing', (b.opened fr content spacing).step true (.data cs f)
      = some (b.opened fr (if isLayout { fr with content := content, spacing := spacing } cs f then content
        else pushText (ofList cs) content) spacing') := by
  have hs : (b.opened fr content spacing).step true (.data cs f) = some { b with
      frames := Frame.addData true { fr with content := content, spacing := spacing } cs f :: b.frames } := rfl
  rw [hs, Frame.addData]
  by_cases hl : isLayout { fr with content := content, spacing := spacing } cs f
  · exact ⟨spacing, by simp [hl, Builder.opened]⟩
  · exact ⟨_, by rw [if_neg (by simpa using hl), if_neg hl]; rfl⟩

theorem pushText_alone (s : String) {content : List Node} (h : startsWithText content = false) :
    pushText s content = .text s :: content := by
  unfold pushText
  split
  · cases h
  · rfl

/-- What a row of text tokens does to the innermost open element: behind a text it continues that text, and
    elsewhere it makes a text of its own or, if all of it is blank, nothing. -/
structure TakesText (tokens : List Token) (s : List Char) : Prop where
  behind : ∀ (b : Builder) (frame : Frame) (t : String) (others : List Node) (spacing : Spacing),
    ∃ spacing', tokens.foldlM (Builder.step true) (b.opened frame (.text t :: others) spacing)
      = some (b.opened frame (.text (t ++ ofList s) :: others) spacing')
  alone : ∀ (b : Builder) (frame : Frame) (content : List Node) (spacing : Spacing), startsWithText content = false →
    ∃ content' spacing', tokens.foldlM (Builder.step true) (b.opened frame content spacing)
      = some (b.opened frame content' spacing') ∧
      (content' = content ∧ s.all isSpace = true ∨ content' = .text (ofList s) :: content)

theorem takesText_nil : TakesText [] [] := by
  constructor
  · intro b fr t os sg
    exact ⟨sg, by simp⟩
  · intro b fr ks sg _
    exact ⟨ks, sg, rfl, .inl ⟨rfl, rfl⟩⟩

theorem TakesText.verbatim (h : TakesText tokens s) (cs : List Char) :
    TakesText (.verbatim cs :: tokens) (cs ++ s) := by
  constructor
  · intro b fr t os sg
    obtain ⟨spacing', hf⟩ := h.behind b fr (t ++ ofList cs) os sg
    refine ⟨spacing', ?_⟩
    rw [String.ofList_append, ← String.append_assoc]
    exact hf
  · intro b fr ks sg hc
    obtain ⟨spacing', hf⟩ := h.behind b fr (ofList cs) ks sg
    refine ⟨_, spacing', ?_, .inr rfl⟩
    rw [List.foldlM_cons, step_verbatim, pushText_alone _ hc, String.ofList_append]
    exact hf

variable {cs rest tl : List Char} {follow : Follow} {n : Node} {f : List Token}

/-- A part of character data is kept if it is not blank or something other than markup follows. It may only be
    missing if it is all there is. -/
theorem TakesText.data (h : TakesText tokens s) (hk : follow = .other ∨ cs.all isSpace = false ∨ tokens = [] ∧ s = []) :
    TakesText (.data cs follow :: tokens) (cs ++ s) := by
  constructor
  · intro b fr t os spacing
    obtain ⟨spacing₁, hs⟩ := step_data b fr (.text t :: os) spacing cs follow
    have hl : isLayout { fr with content := .text t :: os, spacing := spacing } cs follow = false := by
      simp [isLayout, Node.isText]
    rw [hl] at hs
    obtain ⟨spacing', hf⟩ := h.behind b fr (t ++ ofList cs) os spacing₁
    refine ⟨spacing', ?_⟩
    rw [List.foldlM_cons, hs, String.ofList_append, ← String.append_assoc]
    exact hf
  · intro b fr content spacing hc
    obtain ⟨spacing₁, hs⟩ := step_data b fr content spacing cs follow
    by_cases hl : isLayout { fr with content := content, spacing := spacing } cs follow
    · -- a part that only lays out is blank and no text follows it, so it is the last one
      have hb : cs.all isSpace ∧ follow ≠ .other := by
        simp only [isLayout, and_eq_true, bne_iff_ne, ne_eq] at hl
        exact ⟨hl.1.1.1.1.2, hl.1.1.1.2⟩
      rw [if_pos hl] at hs
      rcases hk with ho | hn | ⟨rfl, rfl⟩
      · exact absurd ho hb.2
      · simp [hb.1] at hn
      · exact ⟨content, spacing₁, by rw [List.foldlM_cons, hs]; rfl, .inl ⟨rfl, by simpa using hb.1⟩⟩
    · rw [if_neg hl, pushText_alone _ hc] at hs
      obtain ⟨spacing', hf⟩ := h.behind b fr (ofList cs) content spacing₁
      refine ⟨_, spacing', ?_, .inr rfl⟩
      rw [List.foldlM_cons, hs, String.ofList_append]
      exact hf

theorem not_isSpace_of_not_isQuick (hq : isQuick c = false) (hp : isEscaped c = false) : isSpace c = false := by
  by_contra hs
  simp only [not_eq_false, isSpace, or_eq_true, beq_iff_eq] at hs
  rcases hs with ((rfl | rfl) | rfl) | rfl
  · exact absurd hq (by decide)
  · exact absurd hq (by decide)
  · exact absurd hq (by decide)
  · exact absurd hp (by decide)

theorem TakesText.run (h : TakesText tokens s) {run : List Char} (hp : ∀ c ∈ run, isEscaped c = false)
    (hk : follow = .other ∨ tokens = [] ∧ s = []) :
    TakesText (runTokens run follow ++ tokens) (run ++ s) := by
  unfold runTokens
  cases hd : run.dropWhile isQuick with
  | nil => exact h.data (hk.imp_right .inr)
  | cons c cs =>
    have hs : run = run.takeWhile isQuick ++ c :: cs := by
      rw [← hd, takeWhile_append_dropWhile]
    have hq : isQuick c = false := by
      have := head?_dropWhile_not isQuick run
      simpa [hd] using this
    have hsp : (c :: cs).all isSpace = false := by
      simp [not_isSpace_of_not_isQuick hq (hp c (by rw [hs]; simp))]
    have hl : TakesText (.data (c :: cs) follow :: tokens) (c :: cs ++ s) := h.data (.inr (.inl hsp))
    have ha : TakesText (dataToken (run.takeWhile isQuick) .other ++ .data (c :: cs) follow :: tokens)
        (run.takeWhile isQuick ++ (c :: cs ++ s)) := by
      unfold dataToken
      split
      · next he => simpa [List.isEmpty_iff.mp he] using hl
      · exact hl.data (.inl rfl)
    rw [← List.append_assoc, ← hs] at ha
    simpa using ha

/-- A text begins with a run of characters that are written as they are, and goes on with another character. -/
theorem exists_run {p : Char → Bool} (hc : p c = false) (s : List Char) :
    ∃ run tl, c :: s = run ++ tl ∧ run ≠ [] ∧ (∀ d ∈ run, p d = false) ∧ tl.length ≤ s.length ∧
      ∀ d, tl.head? = some d → p d := by
  refine ⟨(c :: s).takeWhile (fun d => !p d), (c :: s).dropWhile (fun d => !p d),
    (takeWhile_append_dropWhile ..).symm, by simp [hc], fun d hd => ?_, ?_, fun d hd => ?_⟩
  · simpa using mem_takeWhile_imp hd
  · rw [dropWhile_cons_of_pos (by simp [hc])]
    exact (dropWhile_suffix _).length_le
  · have hs := head?_dropWhile_not (fun d => !p d) (c :: s)
    simpa [hd] using hs

variable (w : Writer)

theorem not_isEscaped_of_plain (h : w.text.escaped c = false) : isEscaped c = false :=
  Bool.eq_false_iff.mpr fun hm => by simp [w.text.marks c hm] at h

theorem Escape.flatMap_plain (e : Escape) (h : ∀ c ∈ cs, e.escaped c = false) : cs.flatMap e.chars = cs := by
  induction cs with
  | nil => rfl
  | cons c cs ih =>
    rw [List.flatMap_cons, e.plain c (h c mem_cons_self), ih fun d hd => h d (mem_cons_of_mem _ hd), singleton_append]

theorem reads_text (ents : Entities) (exp : String → Option (List Token))
    (hr : rest.head? = some '<') (s : List Char) (ha : ∀ c ∈ s, isAllowed c) : ∃ ts,
    (∀ back, Spells ents exp rest back → Spells ents exp (s.flatMap w.text.chars ++ rest) (ts ++ back)) ∧
    TakesText ts s := by
  match s with
  | [] => exact ⟨[], fun back h => h, takesText_nil⟩
  | c :: s =>
    cases hc : w.text.escaped c with
    | true =>
      obtain ⟨ts, hs, ht⟩ := reads_text ents exp hr s fun d hd => ha d (mem_cons_of_mem _ hd)
      refine ⟨.verbatim [c] :: ts, fun back hb => ?_, ht.verbatim [c]⟩
      rw [List.flatMap_cons, List.append_assoc]
      exact (hs back hb).escaped w hc
    | false =>
      -- characters that stand for themselves are read in one go, so the induction is on the length of the text
      obtain ⟨run, tl, hsp, hn, hpl, hl, hst⟩ := exists_run hc s
      have hp := fun d hd => not_isEscaped_of_plain w (hpl d hd)
      rw [hsp] at ha ⊢
      have hru : ∀ d ∈ run, isAllowed d := fun d hd => ha d (mem_append_left _ hd)
      rw [List.flatMap_append, w.text.flatMap_plain hpl, List.append_assoc]
      cases tl with
      | nil =>
        obtain ⟨post, rfl⟩ := head?_eq_some_iff.mp hr
        refine ⟨runTokens run (Follow.of ('<' :: post)) ++ [], fun back hb => ?_,
          takesText_nil.run hp (.inr ⟨rfl, rfl⟩)⟩
        rw [append_nil]
        exact hb.run hn hp hru ⟨'<', post, rfl, by decide⟩
      | cons d tl =>
        obtain ⟨ts, hs, ht⟩ := reads_text ents exp hr (d :: tl) fun e he => ha e (mem_append_right _ he)
        obtain ⟨cs, hcs, -⟩ := w.text.reference d (hst d rfl)
        refine ⟨runTokens run .other ++ ts, fun back hb => ?_, ht.run hp (.inl rfl)⟩
        have haf := hs back hb
        rw [List.flatMap_cons, hcs] at haf ⊢
        simp only [cons_append, List.append_assoc] at haf ⊢
        exact haf.run hn hp hru ⟨'&', _, rfl, by decide⟩
termination_by s.length

/-! ### Nodes -/

def Builder.place (b : Builder) (node : Node) : Builder :=
  match node.element? with
  | some e => b.addElement e
  | none => b.addNode node

theorem place_opened (b : Builder) (fr : Frame) (ks : List Node) (spacing : Spacing) (n : Node) :
    (b.opened fr ks spacing).place n = b.opened fr (n :: ks) spacing := by
  cases n <;> rfl

/-- Tokens that put a node into the tree as it was written. -/
structure Rebuilds (bindings : List Namespace) (tokens : List Token) (node : Node) : Prop where
  places : ∀ b : Builder, bindingsIn b.frames = bindings →
    (node.element?.isSome = true → b.frames = [] → b.root = none) →
    ∃ m, Kept [m] [node] ∧ tokens.foldlM (Builder.step true) b = some (b.place m)

/-- Tokens that put a content into the innermost open element as it was written. -/
structure RebuildsAll (bindings : List Namespace) (tokens : List Token) (nodes : List Node) : Prop where
  places : ∀ (b : Builder) (frame : Frame) (content : List Node) (spacing : Spacing), frame.bindings = bindings →
    (startsWithText nodes = true → startsWithText content = false) →
    ∃ ms spacing', Kept ms nodes ∧ tokens.foldlM (Builder.step true) (b.opened frame content spacing)
      = some (b.opened frame (ms.reverse ++ content) spacing')

theorem step_startTag {tag : Tag} (ht : tag.IsPrintable bindings) {b : Builder}
    (hb : bindingsIn b.frames = bindings) (hr : b.frames = [] → b.root = none) (cl : Bool) :
    ∃ sg, b.step true (.startTag tag.name.raw tag.rawAttributes cl) = some (if cl then b.addElement ⟨tag, []⟩
        else b.opened ⟨tag.name.raw, tag, tag.declared ++ bindings, sg, []⟩ [] sg) := by
  refine ⟨innerSpacing ((b.frames.head?.map Frame.spacing).getD .undecided) tag, ?_⟩
  have hfr : (b.frames.isEmpty && b.root.isSome) = false := by
    cases hf : b.frames with
    | nil => simp [hr hf]
    | cons fr frames => rfl
  have hre : resolveTag? ((b.frames.head?.map Frame.bindings).getD []) tag.name.raw tag.rawAttributes
      = some (tag, tag.declared ++ bindings) := by
    have heq : (b.frames.head?.map Frame.bindings).getD [] = bindings := hb
    rw [heq, ht.rereads]
  simp only [Builder.step, hfr, hre]
  cases cl <;> rfl

theorem step_endTag (b : Builder) (fr : Frame) (ks : List Node) (sg : Spacing) :
    (b.opened fr ks sg).step true (.endTag fr.raw) = some (b.addElement ⟨fr.tag, ks.reverse⟩) := by
  simp [Builder.step, Builder.opened]

mutual

/-- A node as a writer writes it on no lines of its own. -/
def Node.charsBy : Node → List Char
  | .text s => s.toList.flatMap w.text.chars
  | .element tag content =>
    '<' :: (tag.charsBy w ++ (if content.isEmpty then ['/', '>']
      else '>' :: (charsOfBy content ++ '<' :: '/' :: (tag.name.raw.chars ++ ['>']))))
  | node => node.chars

def charsOfBy : List Node → List Char
  | [] => []
  | node :: rest => node.charsBy ++ charsOfBy rest

end

mutual

theorem charsBy_printed : ∀ n : Node, n.charsBy printed = n.chars
  | .text s => by
    rw [Node.chars, toList_escapeText]
    rfl
  | .comment _ | .instruction _ _ => rfl
  | .element tag ns => by rw [Node.charsBy, Node.chars, Tag.charsBy_printed, charsOfBy_printed ns, toList_written]

theorem charsOfBy_printed : ∀ ns : List Node, charsOfBy printed ns = charsOf ns
  | [] => rfl
  | n :: ns => by rw [charsOfBy, charsOf, charsBy_printed n, charsOfBy_printed ns]

end

theorem head?_charsBy (h : n.isText = false) (tl : List Char) : (n.charsBy w ++ tl).head? = some '<' := by
  cases n with
  | text => cases h
  | instruction tgt b => cases b <;> rfl
  | element | comment => rfl

theorem head?_chars (h : n.isText = false) (tl : List Char) : (n.chars ++ tl).head? = some '<' := by
  rw [← charsBy_printed]
  exact head?_charsBy printed h tl

theorem head?_charsOfBy (h : startsWithText ns = false) (hr : tl.head? = some '<') :
    (charsOfBy w ns ++ tl).head? = some '<' := by
  cases ns with
  | nil => simpa [charsOfBy] using hr
  | cons n ns =>
    rw [charsOfBy, List.append_assoc]
    exact head?_charsBy w h _

theorem TakesText.rebuildsAll {s : String} (hfr : TakesText f s.toList)
    (ht : RebuildsAll bindings tokens ns) (hn : startsWithText ns = false) :
    RebuildsAll bindings (f ++ tokens) (.text s :: ns) := by
  refine ⟨fun b fr ks sg hfra hc => ?_⟩
  obtain ⟨content₁, spacing₁, hf₁, hte⟩ := hfr.alone b fr ks sg (hc rfl)
  obtain ⟨ms, spacing', hk, hf⟩ := ht.places b fr content₁ spacing₁ hfra (by simp [hn])
  rw [foldlM_append, hf₁]
  rcases hte with ⟨rfl, hb⟩ | rfl
  · exact ⟨ms, spacing', .blank hb hk, hf⟩
  · refine ⟨.text s :: ms, spacing', .leaf rfl hk, ?_⟩
    simpa using hf

theorem Rebuilds.rebuildsAll (hfr : Rebuilds bindings f n)
    (hte : n.isText = false) (ht : RebuildsAll bindings tokens ns) :
    RebuildsAll bindings (f ++ tokens) (n :: ns) := by
  refine ⟨fun b fr ks sg hf _ => ?_⟩
  obtain ⟨m, hk₁, hf₁⟩ := hfr.places (b.opened fr ks sg) hf (by simp [Builder.opened])
  rw [place_opened] at hf₁
  have hm : startsWithText (m :: ks) = false := by
    have := hk₁.startsWithText_eq (by simpa [startsWithText] using hte)
    simpa [startsWithText] using this
  obtain ⟨ms, spacing', hk, hfo⟩ := ht.places b fr (m :: ks) sg hf (fun _ => hm)
  refine ⟨m :: ms, spacing', hk₁.append hk, ?_⟩
  rw [foldlM_append, hf₁]
  simpa using hfo

variable (ents : Entities) (exp : String → Option (List Token))

mutual

theorem reads_node : ∀ {bs : List Namespace} {n : Node}, n.isText = false →
    n.IsPrintable bs → n.IsJoined → ∀ tl : List Char, ∃ ts,
    (∀ back, Spells ents exp tl back → Spells ents exp (n.charsBy w ++ tl) (ts ++ back)) ∧
    Rebuilds bs ts n
  | bs, .text s, hte, _, _, tl => by cases hte
  | bs, .comment s, _, h, _, tl =>
    ⟨[.comment s], fun back hba => hba.comment h, ⟨fun b _ _ => ⟨.comment s, .leaf rfl .nil, rfl⟩⟩⟩
  | bs, .instruction tgt bd, _, h, _, tl => ⟨[.instruction tgt bd], fun back hba => hba.instruction h,
      ⟨fun b _ _ => ⟨.instruction tgt bd, .leaf rfl .nil, rfl⟩⟩⟩
  | bs, .element tag [], _, h, _, tl => by
    refine ⟨[.startTag tag.name.raw tag.rawAttributes true], fun back hba => ?_, ⟨fun b hb hr => ?_⟩⟩
    · have := hba.startTag w h.1.written true
      simpa [Node.charsBy, tagEnd] using this
    · obtain ⟨sg, hs⟩ := step_startTag h.1 hb (hr rfl) true
      refine ⟨.element tag [], .element .nil .nil, ?_⟩
      rw [List.foldlM_cons, hs]
      rfl
  | bs, .element tag (a :: more), _, h, hj, tl => by
    obtain ⟨ht, hc⟩ := h
    have hcl : ('<' :: '/' :: (tag.name.raw.chars ++ '>' :: tl)).head? = some '<' := rfl
    obtain ⟨ts, hsp, hp⟩ := reads_all hc hj hcl
    refine ⟨.startTag tag.name.raw tag.rawAttributes false :: (ts ++ [.endTag tag.name.raw]),
      fun back hba => ?_, ⟨fun b hb hr => ?_⟩⟩
    · have ha := (hsp _ (hba.endTag ht.written.name)).startTag w ht.written false
      simpa [Node.charsBy, tagEnd] using ha
    · obtain ⟨sg, hs⟩ := step_startTag ht hb (hr rfl) false
      obtain ⟨ms, spacing', hk, hf⟩ := hp.places b
        ⟨tag.name.raw, tag, tag.declared ++ bs, sg, []⟩ [] sg rfl (fun _ => rfl)
      refine ⟨.element tag ms, .element hk .nil, ?_⟩
      have he := step_endTag b ⟨tag.name.raw, tag, tag.declared ++ bs, sg, []⟩ (ms.reverse ++ []) spacing'
      rw [append_nil, reverse_reverse] at he
      rw [List.foldlM_cons, hs]
      simp only [false_eq_true, if_false, Option.bind_eq_bind, Option.bind_some, foldlM_append, hf,
        append_nil, List.foldlM_cons, he]
      rfl

theorem reads_all : ∀ {bs : List Namespace} {ns : List Node}, ArePrintable bs ns →
    AreJoined ns → ∀ {tl : List Char}, tl.head? = some '<' → ∃ ts,
    (∀ back, Spells ents exp tl back → Spells ents exp (charsOfBy w ns ++ tl) (ts ++ back)) ∧
    RebuildsAll bs ts ns
  | bs, [], _, _, tl, hr => by
    refine ⟨[], fun back hb => ?_, ⟨fun b fr ks sg _ _ => ⟨[], sg, .nil, rfl⟩⟩⟩
    simpa [charsOfBy] using hb
  | bs, n :: ns, h, hj, tl, hr => by
    obtain ⟨ts, hs, hp⟩ := reads_all h.2 hj.2.2 hr
    cases ht : n.isText with
    | true =>
      obtain ⟨s, rfl⟩ : ∃ s, n = .text s := by
        cases n with
        | text s => exact ⟨s, rfl⟩
        | element | comment | instruction => cases ht
      have hn := hj.2.1 ht
      have ha := h.1
      obtain ⟨f, hf, hta⟩ := reads_text w ents exp (head?_charsOfBy w hn hr) s.toList (all_eq_true.mp ha)
      refine ⟨f ++ ts, fun back hb => ?_, hta.rebuildsAll hp hn⟩
      have hal := hf _ (hs back hb)
      simpa [charsOfBy, Node.charsBy] using hal
    | false =>
      obtain ⟨f, hf, hno⟩ := reads_node ht h.1 hj.1 (charsOfBy w ns ++ tl)
      refine ⟨f ++ ts, fun back hb => ?_, hno.rebuildsAll ht hp⟩
      have hal := hf _ (hs back hb)
      simpa [charsOfBy] using hal

end

end ProcessForge.Xml
