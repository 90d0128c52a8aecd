import ProcessForge.Proofs.Text.BlankLines
import ProcessForge.Xml.Printer
import ProcessForge.Xml.Reader

/-! What a tree holds, whatever its layout. Texts that follow one another are one text, and texts of blanks only do
    not count. A tree that is written on several lines is a tree with such texts between its nodes, written as it is. -/

namespace ProcessForge.Xml

open List

def Node.isBlank : Node → Bool
  | .text s => s.toList.all isSpace
  | _ => false

/-- A node in front of a content; texts that meet become one. -/
def pushNode : Node → List Node → List Node
  | .text s, .text t :: rest => .text (s ++ t) :: rest
  | node, rest => node :: rest

mutual

def Node.joined : Node → Node
  | .element tag content => .element tag (joinedAll content)
  | node => node

/-- A content whose adjacent texts are joined. -/
def joinedAll : List Node → List Node
  | [] => []
  | node :: rest => pushNode node.joined (joinedAll rest)

end

mutual

def Node.solid : Node → Node
  | .element tag content => .element tag (solidAll content)
  | node => node

def solidAll : List Node → List Node
  | [] => []
  | node :: rest => if node.isBlank then solidAll rest else node.solid :: solidAll rest

end

mutual

/-- A node with its texts, comments and instructions changed. -/
def Node.mapText (f : String → String) : Node → Node
  | .element tag content => .element tag (mapTextAll f content)
  | .text s => .text (f s)
  | .comment s => .comment (f s)
  | .instruction target body => .instruction target (body.map f)

/-- A content with its texts, comments and instructions changed. -/
def mapTextAll (f : String → String) : List Node → List Node
  | [] => []
  | node :: rest => node.mapText f :: mapTextAll f rest

end

/-- What an element holds: its tag, and all below it without blank texts. -/
def Element.substance (e : Element) : Element := ⟨e.tag, solidAll (joinedAll e.content)⟩

def tidyText (s : String) : String := String.ofList (Text.tidy s.toList)

/-- An element without blank lines inside of its texts, comments and instructions. -/
def Element.tidied (e : Element) : Element := ⟨e.tag, mapTextAll tidyText (joinedAll e.content)⟩

/-! ### Layout as text -/

mutual

/-- A node at a level with its layout as texts. -/
def Node.laidOut (level : Nat) : Node → Node
  | .element tag content =>
    if content.isEmpty || content.any Node.isText then .element tag content
    else .element tag (laidOutAll level content)
  | node => node

/-- The content of an element at a level, with its layout as texts. -/
def laidOutAll (level : Nat) : List Node → List Node
  | [] => [.text ("\n" ++ indentation level)]
  | node :: rest =>
    .text ("\n" ++ indentation (level + 1)) :: node.laidOut (level + 1) :: laidOutAll level rest

end

def Tag.chars (tag : Tag) : List Char := tag.render.toList

mutual

/-- A node as it is written on no lines of its own. -/
def Node.chars : Node → List Char
  | .text s => (escapeText s).toList
  | .comment s => '<' :: '!' :: '-' :: '-' :: (s.toList ++ ['-', '-', '>'])
  | .instruction target none => '<' :: '?' :: (target.toList ++ ['?', '>'])
  | .instruction target (some body) => '<' :: '?' :: (target.toList ++ ' ' :: (body.toList ++ ['?', '>']))
  | .element tag content =>
    '<' :: (tag.chars ++ (if content.isEmpty then ['/', '>']
      else '>' :: (charsOf content ++ '<' :: '/' :: (tag.name.written.toList ++ ['>']))))

/-- A content as it is written on no lines of its own. -/
def charsOf : List Node → List Char
  | [] => []
  | node :: rest => node.chars ++ charsOf rest

end

mutual

theorem toList_render (l : Nat) : ∀ n : Node, (n.render false l).toList = n.chars
  | .text _ | .comment _ | .instruction _ none | .instruction _ (some _) => by simp [Node.render, Node.chars]
  | .element tag [] => by simp [Node.render, Node.chars, Tag.chars]
  | .element tag (f :: tl) => by
    have hf := toList_render (l + 1) f
    have hr := toList_renderLines (l + 1) tl
    simp [Node.render, Node.renderLine, Node.chars, charsOf, Tag.chars, hf, hr]

theorem toList_renderLines (l : Nat) : ∀ ns : List Node, (renderLines false l ns).toList = charsOf ns
  | [] => by simp [renderLines, charsOf]
  | n :: tl => by
    have hn := toList_render l n
    have hr := toList_renderLines l tl
    simp [renderLines, Node.renderLine, charsOf, hn, hr]

end

theorem toList_escapeText (s : String) :
    (escapeText s).toList = s.toList.flatMap fun c => (escapeTextChar c).toList := by
  simp [escapeText, flatMap_map]

theorem escapeTextChar_of_ne {c : Char} (ha : c ≠ '&') (hl : c ≠ '<') (hg : c ≠ '>')
    (hr : c ≠ '\r') : escapeTextChar c = c.toString := by
  unfold escapeTextChar
  split <;> simp_all

theorem toList_escapeText_layout (l : Nat) :
    (escapeText ("\n" ++ indentation l)).toList = '\n' :: (indentation l).toList := by
  have hs : ∀ n, (replicate n ' ').flatMap (fun c => (escapeTextChar c).toList) = replicate n ' ' := by
    intro n
    induction n with
    | zero => rfl
    | succ n ih =>
      rw [replicate_succ, flatMap_cons, ih]
      rfl
  simp only [toList_escapeText, String.toList_append, flatMap_append, indentation, String.toList_ofList, hs]
  rfl

mutual

theorem toList_render_lined (l : Nat) : ∀ n : Node, (n.render true l).toList = (n.laidOut l).chars
  | .text _ | .comment _ | .instruction _ none | .instruction _ (some _) => by
    simp [Node.render, Node.laidOut, Node.chars]
  | .element tag [] => by simp [Node.render, Node.laidOut, Node.chars, Tag.chars]
  | .element tag (f :: tl) => by
    by_cases ht : (f.isText || tl.any Node.isText)
    · -- with a text in it the element goes on one line, with everything below it
      have hf := toList_render (l + 1) f
      have hr := toList_renderLines (l + 1) tl
      simp [Node.render, Node.laidOut, Node.renderLine, Node.chars, charsOf, Tag.chars, ht, hf, hr]
    · have hn := toList_render_content l (f :: tl)
      have hne : (laidOutAll l (f :: tl)).isEmpty = false := by simp [laidOutAll]
      simp only [renderLines, String.toList_append] at hn
      simp [Node.render, Node.laidOut, Node.chars, Tag.chars, ht, hne, ← hn]

theorem toList_render_content (l : Nat) : ∀ ns : List Node,
    ("\n" ++ renderLines true (l + 1) ns ++ indentation l).toList = charsOf (laidOutAll l ns)
  | [] => by simp [renderLines, laidOutAll, charsOf, Node.chars, toList_escapeText_layout]
  | n :: tl => by
    have hn := toList_render_lined (l + 1) n
    have hr := toList_render_content l tl
    simp only [laidOutAll, charsOf, ← hn, ← hr, Node.chars, toList_escapeText_layout, renderLines,
      Node.renderLine, if_true]
    simp

end

/-! ### Joined texts -/

def startsWithText (content : List Node) : Bool := content.head?.any Node.isText

mutual

def Node.IsJoined : Node → Prop
  | .element _ content => AreJoined content
  | _ => True

/-- No texts follow one another in a content. -/
def AreJoined : List Node → Prop
  | [] => True
  | node :: rest => node.IsJoined ∧ (node.isText = true → startsWithText rest = false) ∧ AreJoined rest

end

theorem isText_joined (n : Node) : n.joined.isText = n.isText := by
  cases n <;> simp [Node.joined, Node.isText]

theorem isText_laidOut (l : Nat) (n : Node) : (n.laidOut l).isText = n.isText := by
  cases n with
  | element tag ns =>
    rw [Node.laidOut]
    split <;> rfl
  | text | comment | instruction => simp [Node.laidOut, Node.isText]

theorem isText_mapText (f : String → String) (n : Node) : (n.mapText f).isText = n.isText := by
  cases n <;> simp [Node.mapText, Node.isText]

variable {n : Node} {rest tl : List Node}

theorem pushNode_of_not_isText (h : n.isText = false) (rest : List Node) : pushNode n rest = n :: rest := by
  cases n with
  | text => cases h
  | element | comment | instruction => rfl

theorem pushNode_of_not_startsWithText (n : Node) (h : startsWithText rest = false) : pushNode n rest = n :: rest := by
  match n, rest with
  | .text s, .text t :: rest => cases h
  | .text s, [] | .text s, .element .. :: _ | .text s, .comment _ :: _ | .text s, .instruction .. :: _ => rfl
  | .element .., _ | .comment _, _ | .instruction .., _ => rfl

theorem pushNode_ne_nil (n : Node) (tl : List Node) : pushNode n tl ≠ [] := by
  unfold pushNode
  split <;> simp

theorem charsOf_pushNode (n : Node) (rest : List Node) : charsOf (pushNode n rest) = n.chars ++ charsOf rest := by
  unfold pushNode
  split
  · next s t rest => simp [charsOf, Node.chars, toList_escapeText]
  · simp [charsOf]

theorem areJoined_pushNode (hn : n.IsJoined) (hr : AreJoined tl) : AreJoined (pushNode n tl) := by
  unfold pushNode
  split
  · next s t tl =>
    simp only [AreJoined, Node.IsJoined, true_and] at hr ⊢
    exact ⟨fun _ => hr.1 rfl, hr.2⟩
  · next ha =>
    refine ⟨hn, fun ht => ?_, hr⟩
    match n, tl with
    | .text s, .text t :: tl => exact absurd rfl (ha s t tl rfl)
    | .text s, [] | .text s, .element .. :: _ | .text s, .comment _ :: _ | .text s, .instruction .. :: _ => rfl

mutual

theorem isJoined_joined : ∀ n : Node, n.joined.IsJoined
  | .element tag ns => areJoined_joinedAll ns
  | .text _ | .comment _ | .instruction _ _ => by simp [Node.joined, Node.IsJoined]

theorem areJoined_joinedAll : ∀ ns : List Node, AreJoined (joinedAll ns)
  | [] => by simp [joinedAll, AreJoined]
  | n :: tl => areJoined_pushNode (isJoined_joined n) (areJoined_joinedAll tl)

end

theorem joinedAll_of_areJoined : ∀ {ns : List Node}, AreJoined ns → joinedAll ns = ns
  | [], _ => by rw [joinedAll]
  | .element tag ns :: tl, h => by
    rw [joinedAll, Node.joined, joinedAll_of_areJoined h.1, joinedAll_of_areJoined h.2.2]
    rfl
  | .text s :: tl, h => by
    rw [joinedAll, Node.joined, joinedAll_of_areJoined h.2.2]
    · exact pushNode_of_not_startsWithText _ (h.2.1 rfl)
    · simp
  | .comment _ :: tl, h | .instruction _ _ :: tl, h => by
    rw [joinedAll, Node.joined, joinedAll_of_areJoined h.2.2]
    · rfl
    · simp

mutual

theorem chars_joined : ∀ n : Node, n.joined.chars = n.chars
  | .element tag ns => by
    have he : (joinedAll ns).isEmpty = ns.isEmpty := by
      cases ns with
      | nil => rw [joinedAll]
      | cons n tl => simpa [joinedAll] using pushNode_ne_nil _ _
    rw [Node.joined, Node.chars, Node.chars, he, charsOf_joinedAll ns]
  | .text _ | .comment _ | .instruction _ _ => by rw [Node.joined]; simp

theorem charsOf_joinedAll : ∀ ns : List Node, charsOf (joinedAll ns) = charsOf ns
  | [] => by rw [joinedAll]
  | n :: tl => by
    rw [joinedAll, charsOf_pushNode, chars_joined n, charsOf_joinedAll tl, charsOf]

end

/-! ### Layout does not count -/

/-- A change of texts that keeps blank texts blank. -/
def KeepsBlankTexts (f : String → String) : Prop := ∀ s : String, s.toList.all isSpace → (f s).toList.all isSpace

theorem isBlank_layout {f : String → String} (hf : KeepsBlankTexts f) (l : Nat) :
    ((Node.text ("\n" ++ indentation l)).mapText f).isBlank := by
  apply hf
  simp [indentation, isSpace]

theorem isBlank_of_not_isText (h : n.isText = false) : n.isBlank = false := by
  cases n with
  | text => cases h
  | element | comment | instruction => rfl

mutual

theorem solid_laidOut {f : String → String} (hf : KeepsBlankTexts f) (l : Nat) : ∀ n : Node,
    ((n.laidOut l).joined.mapText f).solid = (n.joined.mapText f).solid
  | .element tag ns => by
    rw [Node.laidOut]
    split
    · rfl
    · next ht =>
      rw [Bool.or_eq_true, not_or] at ht
      simp only [Node.joined, Node.mapText, Node.solid]
      rw [solidAll_laidOutAll hf l ns (by simpa using ht.2)]
  | .text _ | .comment _ | .instruction _ _ => by rw [Node.laidOut]; simp

theorem solidAll_laidOutAll {f : String → String} (hf : KeepsBlankTexts f) (l : Nat) :
    ∀ ns : List Node, (∀ n ∈ ns, n.isText = false) →
    solidAll (mapTextAll f (joinedAll (laidOutAll l ns))) = solidAll (mapTextAll f (joinedAll ns))
  | [], _ => by
    simp [laidOutAll, joinedAll, pushNode, mapTextAll, solidAll, Node.joined, isBlank_layout hf]
  | n :: tl, h => by
    have hn := h n mem_cons_self
    have hr := solidAll_laidOutAll hf l tl fun b ho => h b (mem_cons_of_mem _ ho)
    have ha : ∀ others, pushNode (n.laidOut (l + 1)).joined others = (n.laidOut (l + 1)).joined :: others :=
      pushNode_of_not_isText (by rw [isText_joined, isText_laidOut, hn])
    have hl : ∀ others, pushNode (Node.text ("\n" ++ indentation (l + 1))).joined ((n.laidOut (l + 1)).joined :: others)
        = .text ("\n" ++ indentation (l + 1)) :: (n.laidOut (l + 1)).joined :: others := by
      intro others
      rw [pushNode_of_not_startsWithText _ (by simp [startsWithText, isText_joined, isText_laidOut, hn])]
      simp [Node.joined]
    rw [laidOutAll, joinedAll, joinedAll, joinedAll, ha, hl, pushNode_of_not_isText (by rw [isText_joined, hn])]
    simp only [mapTextAll, solidAll, isBlank_layout hf, if_true, hr, solid_laidOut hf (l + 1) n]
    rw [isBlank_of_not_isText (by rw [isText_mapText, isText_joined, isText_laidOut, hn]),
      isBlank_of_not_isText (by rw [isText_mapText, isText_joined, hn])]

end

end ProcessForge.Xml
