import ProcessForge.Xml.Reader

/-! How the reader builds a tree. A property of nodes that holds of all leaves and of all start tags, and of an element
    once it holds of its tag and of its content, holds of the whole document. It may depend on the declarations around
    the node, which are proper wherever they come from. -/

namespace ProcessForge.Xml

open List Option

variable {name : RawName} {as : List (RawName × String)} {bindings bs : List Namespace} {dropLayout : Bool}
  {b' : Builder} {cs : List Char} {d : Document}

/-! ### Declarations -/

/-- A declaration as documents have it: the fixed short form is not declared, and a short form stands for a
    URI that is not empty. -/
structure Namespace.IsProper (space : Namespace) : Prop where
  short : space.short ≠ some "xml"
  uri : space.short.isSome → space.uri ≠ ""

theorem exists_of_mem_mapM {α β : Type} {f : α → Option β} : ∀ {xs : List α} {ys : List β},
    xs.mapM f = some ys → ∀ y ∈ ys, ∃ x ∈ xs, f x = some y
  | [], ys, h, y, hy => by
    cases h
    cases hy
  | x :: xs, ys, h, y, hy => by
    rw [mapM_cons] at h
    obtain ⟨z, hz, h⟩ := bind_eq_some_iff.mp h
    obtain ⟨zs, hzs, h⟩ := bind_eq_some_iff.mp h
    cases h
    rcases mem_cons.mp hy with rfl | hy
    · exact ⟨x, mem_cons_self .., hz⟩
    · obtain ⟨x', hx', hf'⟩ := exists_of_mem_mapM hzs y hy
      exact ⟨x', mem_cons_of_mem _ hx', hf'⟩

theorem declaration?_isProper {v : String} {s : Namespace} (h : declaration? name v = some (some s)) : s.IsProper := by
  unfold declaration? at h
  split at h
  · split at h
    · cases h
    · cases h
      exact ⟨by simp, by simp⟩
  · split at h
    · split at h
      · split at h <;> cases h
      · next hx =>
        split at h
        · cases h
        · next hv =>
          cases h
          simp only [Bool.or_eq_true, beq_iff_eq, not_or] at hv hx
          exact ⟨by simpa using hx, fun _ => hv.1.1.1.2⟩
    · cases h

theorem declarations?_isProper {dcl : List Namespace} (h : declarations? as = some dcl) :
    ∀ s ∈ dcl, s.IsProper := by
  intro s hs
  obtain ⟨f, hf, rfl⟩ := map_eq_some_iff.mp h
  obtain ⟨_, hm, rfl⟩ := mem_filterMap.mp hs
  obtain ⟨a, -, ha⟩ := exists_of_mem_mapM hf _ hm
  exact declaration?_isProper ha

/-- How a tag comes from its name and its attributes. -/
structure Tag.Comes (bindings : List Namespace) (name : RawName) (attributes : List (RawName × String))
    (tag : Tag) : Prop where
  declared : declarations? attributes = some tag.declared
  space : resolveShort (tag.declared ++ bindings) name.short = some tag.name.space
  stem : tag.name.stem = name.stem
  resolved : resolveAttributes? (tag.declared ++ bindings) attributes = some tag.attributes
  names : allDistinct (attributes.map Prod.fst) = true
  labels : allDistinct (tag.attributes.map fun a => a.name.label) = true

theorem resolveTag?_eq_some {t : List Namespace} {tag : Tag}
    (h : resolveTag? bindings name as = some (tag, t)) :
    tag.Comes bindings name as ∧ t = tag.declared ++ bindings := by
  obtain ⟨dcl, hde, h⟩ := bind_eq_some_iff.mp h
  obtain ⟨s, hs, h⟩ := bind_eq_some_iff.mp h
  obtain ⟨resolved, hr, h⟩ := bind_eq_some_iff.mp h
  split at h
  · next hd =>
    cases h
    rw [Bool.and_eq_true] at hd
    exact ⟨⟨hde, hs, rfl, hr, hd.1, hd.2⟩, rfl⟩
  · cases h

theorem Tag.Comes.resolveTag?_eq {tag : Tag} (h : tag.Comes bindings name as) :
    resolveTag? bindings name as = some (tag, tag.declared ++ bindings) := by
  obtain ⟨⟨s, st⟩, dcl, resolved⟩ := tag
  obtain ⟨hd, hs, hst, hr, hn, hl⟩ := h
  simp only at hd hs hst hr hl
  simp only [resolveTag?, hd, bind_eq_bind, bind_some, hs, hr, hn, hl, hst]
  rfl

/-! ### The tree under construction -/

/-- The declarations in the innermost of some open elements. -/
def bindingsIn (frames : List Frame) : List Namespace := (frames.head?.map Frame.bindings).getD []

/-- The node that a token other than a tag stands for. -/
def Token.leaf? : Token → Option Node
  | .data cs _ => some (.text (String.ofList cs))
  | .verbatim cs => some (.text (String.ofList cs))
  | .comment s => some (.comment s)
  | .instruction target body => some (.instruction target body)
  | .startTag .. => none
  | .endTag _ => none

/-- A property of nodes that every tree has which is built from tokens of some kind. -/
structure Builds (kind : Token → Prop) (P : List Namespace → Node → Prop) : Prop where
  leaf : ∀ (bindings : List Namespace) {token : Token} {node : Node}, kind token → token.leaf? = some node →
    P bindings node
  join : ∀ {bindings : List Namespace} {s t : String}, P bindings (.text s) → P bindings (.text t) →
    P bindings (.text (s ++ t))
  tag : ∀ {bindings : List Namespace} {name : RawName} {attributes : List (RawName × String)} {closed : Bool}
    {tag : Tag}, kind (.startTag name attributes closed) → (∀ space ∈ bindings, space.IsProper) →
    tag.Comes bindings name attributes → P bindings (.element tag [])
  element : ∀ {bindings : List Namespace} {tag : Tag} {content : List Node}, P bindings (.element tag []) →
    (∀ node ∈ content, P (tag.declared ++ bindings) node) → P bindings (.element tag content)

/-- Open elements that have a property as far as they are there. -/
inductive FramesHold (P : List Namespace → Node → Prop) : List Frame → Prop
  | nil : FramesHold P []
  | cons {frame : Frame} {rest : List Frame} : P (bindingsIn rest) (.element frame.tag []) →
      frame.bindings = frame.tag.declared ++ bindingsIn rest → (∀ space ∈ frame.bindings, space.IsProper) →
      (∀ node ∈ frame.content, P frame.bindings node) → FramesHold P rest → FramesHold P (frame :: rest)

/-- Whether a node is a comment or an instruction. -/
def Node.isRemark : Node → Bool
  | .comment _ => true
  | .instruction .. => true
  | _ => false

/-- A tree under construction that has a property as far as it is there. -/
structure Builder.Holds (P : List Namespace → Node → Prop) (b : Builder) : Prop where
  frames : FramesHold P b.frames
  root : ∀ e, b.root = some e → P [] e.node
  outside : ∀ node ∈ b.before ++ b.after, node.isRemark = true ∧ P [] node

section

variable {k : Token → Prop} {P : List Namespace → Node → Prop} {b : Builder}

theorem FramesHold.proper {frames : List Frame} (h : FramesHold P frames) : ∀ s ∈ bindingsIn frames, s.IsProper := by
  cases h with
  | nil => simp [bindingsIn]
  | cons _ _ hp _ _ => exact hp

theorem FramesHold.withContent {f : Frame} {tl : List Frame} (h : FramesHold P (f :: tl))
    {content : List Node} {spacing : Spacing} (hc : ∀ n ∈ content, P f.bindings n) :
    FramesHold P ({ f with content := content, spacing := spacing } :: tl) := by
  cases h with
  | cons ht hb hp _ hr => exact .cons ht hb hp hc hr

theorem FramesHold.content {f : Frame} {tl : List Frame} (h : FramesHold P (f :: tl)) :
    ∀ node ∈ f.content, P f.bindings node := by
  cases h with
  | cons _ _ _ hc _ => exact hc

theorem Builds.pushText (hP : Builds k P) {s : String} {ns : List Node} (hs : P bs (.text s))
    (h : ∀ node ∈ ns, P bs node) : ∀ node ∈ pushText s ns, P bs node := by
  unfold Xml.pushText
  split
  · next t tl =>
    rw [forall_mem_cons] at h ⊢
    exact ⟨hP.join h.1 hs, h.2⟩
  · exact forall_mem_cons.mpr ⟨hs, h⟩

theorem Builder.Holds.addNode (h : b.Holds P) {node : Node} (hn : P (bindingsIn b.frames) node)
    (hre : b.frames = [] → node.isRemark) : (b.addNode node).Holds P := by
  obtain ⟨hf, hr, ho⟩ := h
  unfold Builder.addNode
  split
  · next frame tl hb =>
    rw [hb] at hf hn
    exact ⟨hf.withContent (forall_mem_cons.mpr ⟨hn, hf.content⟩), hr, ho⟩
  · next hb =>
    have hou : node.isRemark ∧ P [] node := by
      rw [hb] at hn
      exact ⟨hre hb, hn⟩
    rw [forall_mem_append] at ho
    split
    · exact ⟨hf, hr, forall_mem_cons.mpr ⟨hou, forall_mem_append.mpr ho⟩⟩
    · exact ⟨hf, hr, forall_mem_append.mpr ⟨ho.1, forall_mem_cons.mpr ⟨hou, ho.2⟩⟩⟩

theorem Builder.Holds.addElement (h : b.Holds P) {e : Element} (he : P (bindingsIn b.frames) e.node) :
    (b.addElement e).Holds P := by
  unfold Builder.addElement
  split
  · next hb =>
    rw [hb] at he
    refine ⟨h.frames, fun root hr => ?_, h.outside⟩
    cases hr
    exact he
  · next hb => exact h.addNode he fun hf => absurd hf hb

theorem Builder.Holds.startTag (hP : Builds k P) (h : b.Holds P) {c : Bool} (ht : k (.startTag name as c))
    (hs : b.step dropLayout (.startTag name as c) = some b') : b'.Holds P := by
  unfold Builder.step at hs
  cases hd : b.frames.isEmpty && b.root.isSome with
  | true => simp [hd] at hs
  | false =>
    simp only [hd, Bool.false_eq_true, if_false] at hs
    obtain ⟨⟨tag, t⟩, hta, hs⟩ := bind_eq_some_iff.mp hs
    obtain ⟨hc, rfl⟩ := resolveTag?_eq_some hta
    have he : P (bindingsIn b.frames) (.element tag []) := hP.tag ht h.frames.proper hc
    split at hs
    · cases hs
      exact h.addElement he
    · cases hs
      have hp : ∀ s ∈ tag.declared ++ bindingsIn b.frames, s.IsProper :=
        forall_mem_append.mpr ⟨declarations?_isProper hc.declared, h.frames.proper⟩
      exact ⟨.cons he rfl hp (by simp) h.frames, h.root, h.outside⟩

theorem Builder.Holds.endTag (hP : Builds k P) (h : b.Holds P) (hs : b.step dropLayout (.endTag name) = some b') :
    b'.Holds P := by
  unfold Builder.step at hs
  cases hb : b.frames with
  | nil =>
    rw [hb] at hs
    cases hs
  | cons f tl =>
    simp only [hb] at hs
    split at hs
    · cases hs
      have hf := hb ▸ h.frames
      cases hf with
      | cons ht hbi _ hc hr =>
        have ho : Builder.Holds P { b with frames := tl } := ⟨hr, h.root, h.outside⟩
        refine ho.addElement (hP.element ht fun n hn => ?_)
        exact hbi ▸ hc n (mem_reverse.mp hn)
    · cases hs

theorem Builder.Holds.step (hP : Builds k P) (h : b.Holds P) {t : Token} (ht : k t)
    (hs : b.step dropLayout t = some b') : b'.Holds P := by
  cases t with
  | comment s =>
    cases hs
    exact h.addNode (hP.leaf _ ht rfl) fun _ => rfl
  | instruction tgt bd =>
    cases hs
    exact h.addNode (hP.leaf _ ht rfl) fun _ => rfl
  | data cs fo =>
    unfold Builder.step at hs
    cases hb : b.frames with
    | nil =>
      simp only [hb] at hs
      split at hs
      · cases hs
        exact h
      · cases hs
    | cons f tl =>
      simp only [hb] at hs
      cases hs
      have hf := hb ▸ h.frames
      refine ⟨?_, h.root, h.outside⟩
      unfold Frame.addData
      split
      · exact hf
      · exact hf.withContent (hP.pushText (hP.leaf _ ht rfl) hf.content)
  | verbatim cs =>
    unfold Builder.step at hs
    cases hb : b.frames with
    | nil =>
      simp only [hb] at hs
      cases hs
    | cons f tl =>
      simp only [hb] at hs
      cases hs
      have hf := hb ▸ h.frames
      exact ⟨hf.withContent (hP.pushText (hP.leaf _ ht rfl) hf.content), h.root, h.outside⟩
  | startTag name as c => exact h.startTag hP ht hs
  | endTag name => exact h.endTag hP hs

theorem Builder.Holds.foldlM (hP : Builds k P) (dropLayout : Bool) : ∀ {ts : List Token} {b b' : Builder},
    b.Holds P → (∀ t ∈ ts, k t) → ts.foldlM (Builder.step dropLayout) b = some b' → b'.Holds P
  | [], b, b', h, _, hf => by
    cases hf
    exact h
  | t :: tl, b, b', h, hk, hf => by
    rw [forall_mem_cons] at hk
    obtain ⟨b₁, hfi, hr⟩ := bind_eq_some_iff.mp hf
    exact (h.step hP hk.1 hfi).foldlM hP dropLayout hk.2 hr

end

/-! ### Documents -/

/-- The document type at the beginning of a text, if there is one, and the entities. -/
def readType (cs : List Char) : Option (Option Doctype × Entities × List Char) :=
  match Text.dropPrefix? "<!DOCTYPE".toList cs with
  | some rest => (readDoctype rest).map fun (doctype, entities, rest) => (some doctype, entities, rest)
  | none => some (none, [], cs)

/-- The steps in which a document is read. -/
structure Parsing (dropLayout : Bool) (cs : List Char) (d : Document) where
  encoding : Option String
  {body behind inner : List Char}
  entities : Entities
  {tokens : List Token}
  built : Builder
  declaration : readDeclaration cs = some (⟨d.version, encoding⟩, body)
  preface : readMisc (body.length + 1) body = some (d.preface, behind)
  doctype : readType behind = some (d.doctype, entities, inner)
  tokenized : tokenize (entities.length + 1) entities inner = some tokens
  build : build? dropLayout tokens = some built
  root : built.root = some d.root
  frames : built.frames = []
  before : built.before.reverse = d.before
  after : built.after.reverse = d.after
  coined : d.coined = 0

theorem parseChars_eq (dropLayout : Bool) (cs : List Char) : parseChars dropLayout cs =
    (readDeclaration cs).bind fun (declaration, bd) => (readMisc (bd.length + 1) bd).bind
      fun (leading, behind) => (readType behind).bind fun (doctype, ents, t) =>
        (tokenize (ents.length + 1) ents t).bind fun ts => (build? dropLayout ts).bind
          fun built => built.root.bind fun root => if built.frames.isEmpty then some {
            version := declaration.version, preface := leading, doctype := doctype, before := built.before.reverse,
            root := root, after := built.after.reverse } else none := by
  unfold parseChars readType
  refine Option.bind_congr fun ⟨declaration, bd⟩ _ => ?_
  refine Option.bind_congr fun ⟨leading, behind⟩ _ => ?_
  cases hk : Text.dropPrefix? "<!DOCTYPE".toList behind <;> simp only [hk] <;> rfl

theorem exists_parsing (h : parseChars dropLayout cs = some d) : Nonempty (Parsing dropLayout cs d) := by
  rw [parseChars_eq] at h
  obtain ⟨⟨⟨version, encoding⟩, bd⟩, hd, h⟩ := bind_eq_some_iff.mp h
  obtain ⟨⟨leading, behind⟩, hp, h⟩ := bind_eq_some_iff.mp h
  obtain ⟨⟨doctype, ents, t⟩, hdo, h⟩ := bind_eq_some_iff.mp h
  obtain ⟨ts, ht, h⟩ := bind_eq_some_iff.mp h
  obtain ⟨built, hb, h⟩ := bind_eq_some_iff.mp h
  obtain ⟨root, hr, h⟩ := bind_eq_some_iff.mp h
  split at h
  · next hf =>
    cases h
    exact ⟨⟨encoding, ents, built, hd, hp, hdo, ht, hb, hr, List.isEmpty_iff.mp hf, rfl, rfl, rfl⟩⟩
  · cases h

theorem Parsing.parseChars_eq (h : Parsing dropLayout cs d) : parseChars dropLayout cs = some d := by
  rw [Xml.parseChars_eq, h.declaration]
  simp [h.preface, h.doctype, h.tokenized, h.build, h.root, h.frames, h.before, h.after, ← h.coined]

/-- What the tokens of a document establish holds of its root and of what stands around it. -/
theorem Parsing.holds {k : Token → Prop} {P : List Namespace → Node → Prop} (hP : Builds k P)
    (h : Parsing dropLayout cs d) (hk : ∀ t ∈ h.tokens, k t) :
    P [] d.root.node ∧ ∀ node ∈ d.before ++ d.after, node.isRemark ∧ P [] node := by
  have hem : Builder.Holds P {} := ⟨.nil, fun e he => (by cases he), by simp⟩
  have hb := hem.foldlM hP dropLayout hk h.build
  refine ⟨hb.root d.root h.root, ?_⟩
  rw [← h.before, ← h.after]
  simpa using hb.outside

end ProcessForge.Xml
