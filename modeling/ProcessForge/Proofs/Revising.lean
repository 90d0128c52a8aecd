import ProcessForge.Proofs.Planning
import ProcessForge.Proofs.Xml.Fusion
import ProcessForge.Proofs.Xml.Spaces

/-! Rounds that follow manuals. Such a round succeeds exactly if labels and ids of all elements meet a condition,
    and then it revises what the document shows. A row of such rounds is one revision. What the rounds ask of
    labels and ids still holds in the end, so that the same rounds succeed once more. -/

namespace ProcessForge

open Xml List

/-! ### Documents with a short form -/

/-- All namespaces of a document are of a class, and its root declares a short form. -/
structure Xml.Document.Declares (P : Namespace → Prop) (short : String) (d : Document) : Prop where
  hasOnly : d.root.node.All (Tag.HasOnly P)
  declared : ∃ space ∈ d.root.tag.declared, space.short = some short

section

variable {P : Namespace → Prop} {short : String} {quiet q : Label → Prop}

/-- Quiet edits keep a condition on documents. -/
def IsKept (quiet : Label → Prop) (I : Document → Prop) : Prop := ∀ d jobs nextId, I d →
  d.root.node.Fits (fun _ own => ∀ edit ∈ own, QuietEdit quiet edit) jobs → I (d.perform nextId jobs).1

theorem isKept_declares (hP : IsSpaceClass P) : IsKept quiet (Document.Declares P short) := by
  intro d js nextId hd hj
  have hg := root_of_perform (perform_grows hP d.root.node hj (forall_mem_nil _) hd.hasOnly) nextId
  obtain ⟨s, hs, hsh⟩ := hd.declared
  exact ⟨hg.all, s, hg.declared s hs, hsh⟩

/-- A short form of the root is known everywhere, and it stands for a namespace of the class. -/
theorem Xml.Document.Declares.space? {d : Document} (hd : d.Declares P short) (hx : short ≠ "xml") {p : Place}
    (hp : p ∈ d.root.places) : ∃ s, p.space? short = some s ∧ P s ∧ s.short = some short := by
  obtain ⟨hel, hr⟩ := scope_of_mem_places hp
  rw [Place.space?, if_neg (by simpa using hx), Scope.bound?, if_neg (by simpa using hx)]
  cases hf : (p.element.tag.layer :: p.outer).findSome? fun l =>
      l.declared.find? fun s => s.short == some short with
  | some s =>
    obtain ⟨l, hl, hs⟩ := exists_of_findSome?_eq_some hf
    obtain ⟨e, he, rfl⟩ := hel l hl
    exact ⟨s, rfl, (hd.hasOnly e he).layer.declared s (mem_of_find?_eq_some hs), by simpa using find?_some hs⟩
  | none =>
    obtain ⟨s, hs, hsh⟩ := hd.declared
    have hn := findSome?_eq_none_iff.mp hf _ hr
    have hne := find?_eq_none.mp hn s hs
    exact absurd hsh (by simpa using hne)

/-! ### One round -/

/-- A round with the edits that the root and the other elements get, and with what it asks of labels and ids. -/
structure Round where
  plan : Document → Planning Unit
  top : Manual
  below : Manual
  ok : Label → Option String → Prop

/-- A round follows its manuals, and it leaves quiet elements alone. -/
structure Round.IsSound (quiet : Label → Prop) (I : Document → Prop) (round : Round) : Prop where
  top : round.top.IsQuiet quiet
  below : round.below.IsQuiet quiet
  spares : round.below.Spares quiet
  ok : ∀ label id, quiet label → round.ok label id
  plan : ∀ d, I d → ∃ jobs, Plans (round.plan d) (d.root.node.Meets round.ok) jobs ∧
    ownEdits jobs = round.top.edits d.root.tag ∧
    FitsFrom (fun e own => own = round.below.edits e.tag) jobs 0 d.root.content

variable {I : Document → Prop} {round r : Round} {b b' : Bench}

theorem Round.IsSound.run (hI : IsKept q I) (hr : round.IsSound q I) (hb : I b.document)
    (h : (Bench.round round.plan).run b = (.ok (), b')) : b.document.root.node.Meets round.ok ∧ I b'.document ∧
    b'.document.bare = b.document.bare.revise round.top round.below := by
  obtain ⟨js, hp, ho, hf⟩ := hr.plan b.document hb
  obtain ⟨jobs', nextId, rfl, hd⟩ := round_ok hp.yields h
  have hq : b.document.root.node.Fits (fun _ own => ∀ ed ∈ own, QuietEdit q ed) jobs' := by
    rw [Element.node, Node.Fits, ho]
    exact ⟨hr.top.edits _, FitsFrom.mono (fun e own heq => heq ▸ hr.below.edits _) _ 0 hf⟩
  rw [hd]
  exact ⟨ok_of_round_ok hp h, hI _ _ nextId hb hq, document_perform_bare hr.top hr.below ho hf nextId⟩

theorem Round.IsSound.exists_run (hr : round.IsSound quiet I) (hb : I b.document)
    (h : b.document.root.node.Meets round.ok) : ∃ b', (Bench.round round.plan).run b = (.ok (), b') := by
  obtain ⟨js, hp, -, -⟩ := hr.plan b.document hb
  obtain ⟨_, b', hru⟩ := exists_round_ok hp h
  exact ⟨b', hru⟩

/-! ### A row of rounds -/

def tops (rounds : List Round) : Manual := fun label id => rounds.flatMap fun round => round.top label id

/-- What the other elements get from all rounds. -/
def belows (rounds : List Round) : Manual := fun label id => rounds.flatMap fun round => round.below label id

theorem isQuiet_flatMap {rounds : List Round} {pick : Round → Manual} (h : ∀ r ∈ rounds, (pick r).IsQuiet quiet) :
    Manual.IsQuiet quiet fun l id => rounds.flatMap fun r => pick r l id := by
  intro l id e he
  obtain ⟨r, hr, he⟩ := mem_flatMap.mp he
  exact h r hr l id e he

theorem spares_belows {rounds : List Round} (h : ∀ r ∈ rounds, r.IsSound quiet I) : (belows rounds).Spares quiet := by
  intro l id hl
  exact flatMap_eq_nil_iff.mpr fun r hr => (h r hr).spares l id hl

theorem revise_no_rounds (d : Document) : d.revise (tops []) (belows []) = d := by
  have hc : reviseAll (belows []) d.root.content = d.root.content := reviseAll_of_empty (fun _ _ => rfl) d.root.content
  have hr : d.root.revise (tops []) (belows []) = d.root := by
    rw [Element.revise, hc]
    exact congrArg (Element.mk d.root.tag) (editContent_nil _)
  rw [Document.revise, hr]

theorem revise_cons {tl : List Round} (hr : r.IsSound quiet I) (hre : ∀ r ∈ tl, r.IsSound quiet I) (d : Document) :
    (d.revise r.top r.below).revise (tops tl) (belows tl) = d.revise (tops (r :: tl)) (belows (r :: tl)) := by
  have ht : tops (r :: tl) = r.top.append (tops tl) := funext fun l => funext fun id => flatMap_cons
  have hb : belows (r :: tl) = r.below.append (belows tl) := funext fun l => funext fun id => flatMap_cons
  rw [ht, hb, Document.revise, Document.revise, Document.revise,
    element_revise_revise hr.top hr.below (spares_belows hre)]

/-- Rounds that succeed one after the other are one revision, and what they ask of labels and ids still holds. -/
theorem rounds_run (hI : IsKept quiet I) : ∀ {rounds : List Round} {b : Bench},
    (∀ r ∈ rounds, r.IsSound quiet I) → I b.document →
    (rounds.forM fun r => Bench.round r.plan).run b = (.ok (), b') →
    I b'.document ∧ b'.document.bare = b.document.bare.revise (tops rounds) (belows rounds) ∧
    ∀ r ∈ rounds, b'.document.bare.root.node.Meets r.ok
  | [], b, _, hb, h => by
    cases h
    exact ⟨hb, (revise_no_rounds _).symm, nofun⟩
  | r :: tl, b, hro, hb, h => by
    obtain ⟨hr, hre⟩ := forall_mem_cons.mp hro
    obtain ⟨_, b₁, hf, ho⟩ := run_bind_ok h
    obtain ⟨hok, hb₁, hba₁⟩ := hr.run hI hb hf
    obtain ⟨hb', hba, hoks⟩ := rounds_run hI hre hb₁ ho
    refine ⟨hb', by rw [hba, hba₁, revise_cons hr hre], forall_mem_cons.mpr ⟨?_, hoks⟩⟩
    -- the elements that this and the later rounds add are quiet
    have ho₁ : b₁.document.bare.root.node.Meets r.ok := by
      rw [hba₁]
      exact element_revise_meets hr.top hr.below hr.ok ((bare_node _) ▸ (meets_bare _).mpr hok)
    rw [hba]
    exact element_revise_meets (isQuiet_flatMap fun r hm => (hre r hm).top)
      (isQuiet_flatMap fun r hm => (hre r hm).below) hr.ok ho₁

theorem exists_rounds_run (hI : IsKept quiet I) : ∀ {rounds : List Round} {b : Bench},
    (∀ r ∈ rounds, r.IsSound quiet I) → I b.document →
    (∀ r ∈ rounds, b.document.bare.root.node.Meets r.ok) →
    ∃ b', (rounds.forM fun r => Bench.round r.plan).run b = (.ok (), b')
  | [], b, _, _, _ => ⟨b, rfl⟩
  | r :: tl, b, hro, hb, h => by
    obtain ⟨hr, hre⟩ := forall_mem_cons.mp hro
    obtain ⟨hok, hoks⟩ := forall_mem_cons.mp h
    obtain ⟨b₁, hf⟩ := hr.exists_run hb ((meets_bare _).mp ((bare_node _).symm ▸ hok))
    obtain ⟨-, hb₁, hba₁⟩ := hr.run hI hb hf
    obtain ⟨b', hot⟩ := exists_rounds_run hI hre hb₁ fun o ho => by
      rw [hba₁]
      exact element_revise_meets hr.top hr.below (hre o ho).ok (hoks o ho)
    exact ⟨b', (run_bind_of_ok hf).trans hot⟩

end

end ProcessForge
