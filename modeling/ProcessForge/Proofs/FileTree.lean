import Mathlib.Data.List.Sort
import ProcessForge.FileTree
import ProcessForge.Proofs.Xml.Rereading

/-! Directories that agree. Main statement: the names in a directory are in strict order, so which names pass a test
    is settled by what is there under the names that pass it. -/

namespace ProcessForge.FileTree

open List Text

/-! ### Names in order -/

/-- Repetitions stand side by side in a sorted list, so without them the order is strict. -/
theorem pairwise_eraseReps_loop : ∀ (tl : List String) (name : String) (done : List String),
    (name :: tl).Pairwise (· ≤ ·) → (name :: done).Pairwise (· > ·) →
      (eraseRepsBy.loop (· == ·) name tl done).Pairwise (· < ·) ∧
        ∀ x, x ∈ eraseRepsBy.loop (· == ·) name tl done ↔ x ∈ done ∨ x ∈ name :: tl
  | [], name, done, _, hd => by
    simp only [eraseRepsBy.loop]
    refine ⟨pairwise_reverse.2 hd, fun x => ?_⟩
    rw [mem_reverse, mem_cons, mem_singleton, or_comm]
  | next :: tl, name, done, hr, hd => by
    obtain ⟨hna, hn⟩ := pairwise_cons.1 hr
    cases heq : name == next with
    | true =>
      obtain rfl := eq_of_beq heq
      simp only [eraseRepsBy.loop, heq]
      obtain ⟨hs, hm⟩ := pairwise_eraseReps_loop tl name done hn hd
      refine ⟨hs, fun x => (hm x).trans ?_⟩
      simp
    | false =>
      simp only [eraseRepsBy.loop, heq]
      have hl : name < next := Std.lt_of_le_of_ne (hna next (mem_cons_self ..)) (ne_of_beq_false heq)
      have hd' : (next :: name :: done).Pairwise (· > ·) := by
        refine pairwise_cons.2 ⟨fun x hx => ?_, hd⟩
        rcases mem_cons.1 hx with rfl | hx
        · exact hl
        · exact String.lt_trans (rel_of_pairwise_cons hd hx) hl
      obtain ⟨hs, hm⟩ := pairwise_eraseReps_loop tl next (name :: done) hn hd'
      refine ⟨hs, fun x => (hm x).trans ?_⟩
      simp only [mem_cons]
      tauto

theorem pairwise_mergeSort_names (ns : List String) : (ns.mergeSort fun a b => !(b < a)).Pairwise (· ≤ ·) := by
  have hl : ∀ a b : String, (!decide (b < a)) ↔ a ≤ b := by
    intro a b
    rw [Bool.not_eq_true', decide_eq_false_iff_not, String.not_lt]
  refine (pairwise_mergeSort ?_ ?_ ns).imp fun h => (hl _ _).1 h
  · intro a b c ha hb
    exact (hl a c).2 (String.le_trans ((hl a b).1 ha) ((hl b c).1 hb))
  · intro a b
    rw [Bool.or_eq_true, hl, hl]
    exact String.le_total a b

theorem sortedNames_spec (names : List String) :
    (sortedNames names).Pairwise (· < ·) ∧ ∀ x, x ∈ sortedNames names ↔ x ∈ names := by
  have hs := pairwise_mergeSort_names names
  have hm : ∀ x, x ∈ names.mergeSort (fun a b => !(b < a)) ↔ x ∈ names := fun x => mem_mergeSort
  unfold sortedNames eraseReps eraseRepsBy
  revert hs hm
  cases names.mergeSort fun a b => !(b < a) with
  | nil => exact fun _ hm => ⟨List.Pairwise.nil, hm⟩
  | cons name tl =>
    intro hs hm
    obtain ⟨hst, hl⟩ := pairwise_eraseReps_loop tl name [] hs (pairwise_singleton ..)
    exact ⟨hst, fun x => by rw [← hm, hl]; simp⟩

/-! ### What is there -/

theorem isPresent_iff {t : FileTree} {path : List String} : t.isPresent path ↔ ∃ x ∈ t, path <+: x.1 := by
  simp only [isPresent, bytes?, isDirectory, Bool.or_eq_true, findSome?_isSome_iff, any_eq_true]
  constructor
  · rintro (⟨⟨p, x⟩, hm, hf⟩ | ⟨⟨p, x⟩, hm, hd⟩)
    · cases x <;> grind
    · cases x <;> grind
  · rintro ⟨⟨p, x⟩, hm, hp⟩
    cases x with
    | directory => exact .inr ⟨(p, .directory), hm, by simpa using hp⟩
    | file bytes =>
      by_cases heq : p = path
      · exact .inl ⟨(p, .file bytes), hm, by simp [heq]⟩
      · exact .inr ⟨(p, .file bytes), hm, by simpa [heq] using hp⟩

variable {name : String}

theorem mem_names {t : FileTree} {dir : List String} : name ∈ t.names dir ↔ t.isPresent (dir ++ [name]) := by
  rw [names, (sortedNames_spec _).2, isPresent_iff, mem_filterMap]
  refine exists_congr fun (p, _) => and_congr_right fun _ => ?_
  constructor
  · intro h
    obtain ⟨hb, hh⟩ := Option.ite_none_right_eq_some.1 h
    obtain ⟨tl, rfl⟩ := isPrefixOf_iff_prefix.1 hb
    rw [drop_left, head?_eq_some_iff] at hh
    obtain ⟨below, rfl⟩ := hh
    exact ⟨below, by simp⟩
  · rintro ⟨below, rfl⟩
    simp

theorem text_of_bytes {t : FileTree} {p : List String} {s : String} (h : t.bytes? p = some s.toUTF8)
    (hr : '\r' ∉ s.toList) : t.text p = .ok s := by
  have hd : String.fromUTF8? s.toUTF8 = some s := by
    simp only [String.fromUTF8?, String.toUTF8_eq_toByteArray, dif_pos s.isValidUTF8]
    rfl
  simp only [text, h, hd, Xml.unifyNewlines_of_not_mem hr, String.ofList_toList]

/-! ### Writing -/

theorem bytes?_addDirectory (t : FileTree) (dir path : List String) :
    (t.addDirectory dir).bytes? path = t.bytes? path := by
  rw [addDirectory]
  split
  · rfl
  · rw [bytes?, findSome?_append]
    exact Option.or_none

theorem bytes?_cons (x : List String × FileEntry) (t : FileTree) (p : List String) :
    bytes? (x :: t) p = (bytes? [x] p).or (t.bytes? p) := by
  have ha : bytes? ([x] ++ t) p = (bytes? [x] p).or (t.bytes? p) := findSome?_append
  exact ha

theorem bytes?_of_ne {x : List String × FileEntry} {path : List String} (h : x.1 ≠ path) : bytes? [x] path = none := by
  obtain ⟨p, ns⟩ := x
  cases ns with
  | directory => rfl
  | file bytes => simpa [bytes?] using h

theorem bytes?_filter (p b : List String) : ∀ t : FileTree,
    bytes? (t.filter fun entry => entry.1 != p) b = if b = p then none else t.bytes? b
  | [] => (ite_self none).symm
  | entry :: t => by
    have ih := bytes?_filter p b t
    rw [filter_cons, bytes?_cons entry t]
    split
    · next hk =>
      rw [bytes?_cons, ih]
      split
      · next ho =>
        rw [bytes?_of_ne (ho ▸ bne_iff_ne.mp hk)]
        rfl
      · rfl
    · next hg =>
      rw [ih]
      split
      · rfl
      · next ho =>
        rw [bne_iff_ne, not_not] at hg
        rw [bytes?_of_ne (hg ▸ Ne.symm ho)]
        rfl

theorem bytes?_write (t : FileTree) (p : List String) (ns : String) (other : List String) :
    (t.write p ns).bytes? other = if other = p then some ns.toUTF8 else t.bytes? other := by
  have ha : (t.write p ns).bytes? other
      = (bytes? (t.filter fun x => x.1 != p) other).or (bytes? [(p, .file ns.toUTF8)] other) :=
    findSome?_append
  rw [ha, bytes?_filter]
  split
  · next ho => simp [bytes?, ho]
  · next ho => rw [bytes?_of_ne (Ne.symm ho), Option.or_none]

theorem eq_of_makeDirectory {t t' : FileTree} {dir : List String} (h : t.makeDirectory dir = .ok t') :
    t' = t.addDirectory dir := by
  rw [makeDirectory] at h
  split at h
  · cases h
  · cases h
    rfl

/-- A file that is saved has its content, and no other file changes. -/
theorem bytes?_of_save {t t' : FileTree} {p : List String} {ns : String} (h : t.save p ns = .ok t')
    (other : List String) : t'.bytes? other = if other = p then some ns.toUTF8 else t.bytes? other := by
  rw [save] at h
  cases hm : t.makeDirectory p.dropLast with
  | error f =>
    rw [hm] at h
    cases h
  | ok made =>
    rw [hm] at h
    simp only [bind, Except.bind] at h
    split at h
    · cases h
    · cases h
      rw [bytes?_write, eq_of_makeDirectory hm, bytes?_addDirectory]

/-! ### Names and paths -/

/-- Names that a file may have: not empty, not made of one or two dots, and without a slash. -/
def IsFileName (name : String) : Prop := name ≠ "" ∧ name ≠ "." ∧ name ≠ ".." ∧ '/' ∉ name.toList

instance : DecidablePred IsFileName := fun _ => inferInstanceAs (Decidable (_ ∧ _ ∧ _ ∧ _))

/-- All names in a tree are names that files may have. -/
def HasFileNames (t : FileTree) : Prop := ∀ entry ∈ t, ∀ name ∈ entry.1, IsFileName name

theorem parts_of_pieces {p : String} {ps : List (List Char)} (h : splitAtChar '/' p.toList = ps) :
    parts p = (ps.map String.ofList).filter fun name => name != "" && name != "." := by
  rw [parts, h]

theorem filter_names {names : List String} (h : ∀ name ∈ names, IsFileName name) :
    names.filter (fun name => name != "" && name != ".") = names := by
  refine filter_eq_self.mpr fun name hn => ?_
  rw [Bool.and_eq_true, bne_iff_ne, bne_iff_ne]
  exact ⟨(h name hn).1, (h name hn).2.1⟩

/-- Names of files lead down. -/
theorem follow_of_parts {p : String} {names : List String} (hr : isAbsolute p = false) (hp : parts p = names)
    (h : ∀ name ∈ names, IsFileName name) (dir : List String) : follow dir p = dir ++ names := by
  rw [follow, hr, if_neg Bool.false_ne_true, hp]
  clear hr hp
  induction names generalizing dir with
  | nil => exact (append_nil dir).symm
  | cons name names ih =>
    obtain ⟨hn, h⟩ := forall_mem_cons.mp h
    rw [foldl_cons, beq_false_of_ne hn.2.2.1, if_neg Bool.false_ne_true, ih h, append_assoc]
    rfl

theorem follow_name (h : IsFileName name) (dir : List String) : follow dir name = dir ++ [name] := by
  have ha : isAbsolute name = false := by
    rw [isAbsolute, beq_eq_false_iff_ne]
    exact fun heq => h.2.2.2 (mem_of_mem_head? heq)
  refine follow_of_parts ha ?_ (forall_mem_singleton.mpr h) dir
  rw [parts_of_pieces (splitAtChar_of_not_mem h.2.2.2), map_singleton, String.ofList_toList,
    filter_names (forall_mem_singleton.mpr h)]

theorem follow_child {folder : String} (hf : IsFileName folder) (h : IsFileName name) (dir : List String) :
    follow dir (folder ++ "/" ++ name) = dir ++ [folder, name] := by
  have hc : (folder ++ "/" ++ name).toList = folder.toList ++ '/' :: name.toList := by simp
  have ha : isAbsolute (folder ++ "/" ++ name) = false := by
    rw [isAbsolute, beq_eq_false_iff_ne, hc, head?_append_of_ne_nil _ (by simpa using hf.1)]
    exact fun heq => hf.2.2.2 (mem_of_mem_head? heq)
  have hall : ∀ x ∈ [folder, name], IsFileName x := forall_mem_cons.mpr ⟨hf, forall_mem_singleton.mpr h⟩
  refine follow_of_parts ha ?_ hall dir
  have hp : splitAtChar '/' (folder ++ "/" ++ name).toList = [folder.toList, name.toList] := by
    rw [hc, splitAtChar_append_separator _ hf.2.2.2, splitAtChar_of_not_mem h.2.2.2]
  rw [parts_of_pieces hp, map_cons, map_singleton, String.ofList_toList, String.ofList_toList, filter_names hall]

/-- Whatever stands in front of an ending, the last name of the path has it. -/
theorem follow_ending {ending : String} (hs : '/' ∉ ending.toList) (hlo : 3 ≤ ending.toList.length)
    (dir : List String) (p : String) :
    ∃ name, (follow dir (p ++ ending)).getLast? = some name ∧ ending.toList <:+ name.toList := by
  obtain ⟨ps, last, -, hp⟩ := splitAtChar_append_right hs p.toList
  rw [← String.toList_append] at hp
  have hl : 3 ≤ (last ++ ending.toList).length := by rw [length_append]; omega
  have hn : ∀ short : String, short.toList.length < 3 → String.ofList (last ++ ending.toList) ≠ short := by
    rintro short hsh rfl
    rw [String.toList_ofList] at hsh
    omega
  refine ⟨String.ofList (last ++ ending.toList), ?_, ?_⟩
  · rw [follow, parts_of_pieces hp, map_append, filter_append, map_singleton, filter_singleton,
      bne_iff_ne.mpr (hn "" (by decide)), bne_iff_ne.mpr (hn "." (by decide)), foldl_append]
    simp only [Bool.and_self, cond_true, foldl_cons, foldl_nil]
    rw [beq_false_of_ne (hn ".." (by decide)), if_neg Bool.false_ne_true]
    exact getLast?_concat
  · rw [String.toList_ofList]
    exact suffix_append ..

theorem HasFileNames.isFileName {t : FileTree} (h : t.HasFileNames) {dir : List String}
    (hn : t.isPresent (dir ++ [name])) : IsFileName name := by
  obtain ⟨x, he, below, heq⟩ := isPresent_iff.mp hn
  refine h x he name ?_
  rw [← heq]
  simp

/-! ### Agreement -/

/-- Two trees have the same under two paths. -/
structure AgreeAt (t t' : FileTree) (path path' : List String) : Prop where
  bytes : t.bytes? path = t'.bytes? path'
  directory : t.isDirectory path = t'.isDirectory path'

/-- Two directories have the same under all paths but some. -/
def AgreeBelow (t t' : FileTree) (directory directory' : List String) (except : List String → Bool) : Prop :=
  ∀ path, except path = false → AgreeAt t t' (directory ++ path) (directory' ++ path)

variable {t t' : FileTree} {p path' dir d' : List String}

theorem AgreeAt.isPresent (h : AgreeAt t t' p path') : t.isPresent p = t'.isPresent path' := by
  simp [FileTree.isPresent, h.bytes, h.directory]

theorem AgreeAt.text (h : AgreeAt t t' p path') : t.text p = t'.text path' := by
  simp [FileTree.text, h.bytes]

/-- Directories that agree under all names that pass a test have the same names that pass it. -/
theorem filter_names_eq {p : String → Bool} (h : ∀ name, p name → AgreeAt t t' (dir ++ [name]) (d' ++ [name])) :
    (t.names dir).filter p = (t'.names d').filter p := by
  have hs : ∀ (t : FileTree) (d : List String), ((t.names d).filter p).Pairwise (· < ·) :=
    fun t d => (sortedNames_spec _).1.filter p
  refine (hs t dir).eq_of_mem_iff (hs t' d') fun name => ?_
  simp only [mem_filter, mem_names]
  refine and_congr_left fun hn => ?_
  rw [(h name hn).isPresent]

end ProcessForge.FileTree
