import ProcessForge.Organization.File
import ProcessForge.Proofs.FileTree
import ProcessForge.Proofs.OrderedMap
import ProcessForge.Proofs.Xml.Tree

/-! The organization as a document. Who takes which role is a row of pairs, role by role. Main statement: the document
    lists the users without repetition, all roles, and every pair once, by user and then in the order in which the
    user takes the roles. -/

namespace ProcessForge.Organization

open Xml List OrderedMap

/-! ### Pairs -/

/-- Who takes which role: names of actors and roles, role by role. -/
def assignments (o : Organization) : List (String × String) :=
  o.roles.flatMap fun role => role.actors.map fun actor => (actor.name, role.name)

/-- The roles of a user without repetition, in the order in which they are first taken. -/
def rolesOf (pairs : List (String × String)) (user : String) : List String :=
  ((pairs.filter fun pair => pair.1 == user).map Prod.snd).eraseDups

/-- One more pair in the map from users to roles. -/
def enroll (found : OrderedMap (List String)) (pair : String × String) : OrderedMap (List String) :=
  let roles := (found.value? pair.1).getD []
  found.put pair.1 (if roles.contains pair.2 then roles else roles ++ [pair.2])

theorem memberships_eq (o : Organization) : o.memberships = o.assignments.foldl enroll [] := by
  simp only [assignments, foldl_flatMap, foldl_map]
  rfl

theorem mem_rolesOf {pairs : List (String × String)} {user role : String} :
    role ∈ rolesOf pairs user ↔ (user, role) ∈ pairs := by
  simp [rolesOf]

theorem rolesOf_concat (pairs : List (String × String)) (pair : String × String) (user : String) :
    rolesOf (pairs ++ [pair]) user = if pair.1 = user then
      if pair.2 ∈ rolesOf pairs user then rolesOf pairs user else rolesOf pairs user ++ [pair.2]
    else rolesOf pairs user := by
  split
  · next hu => simp [rolesOf, filter_append, hu, eraseDups_append_singleton]
  · next hu => simp [rolesOf, filter_append, hu]

/-- What the map holds when some pairs are done. -/
structure Holds (found : OrderedMap (List String)) (pairs : List (String × String)) : Prop where
  nodup : found.keys.Nodup
  keys : ∀ user, user ∈ found.keys ↔ ∃ role, (user, role) ∈ pairs
  roles : ∀ user, (found.value? user).getD [] = rolesOf pairs user

theorem Holds.enroll {f : OrderedMap (List String)} {pairs : List (String × String)} (h : Holds f pairs)
    (pair : String × String) : Holds (enroll f pair) (pairs ++ [pair]) := by
  refine ⟨nodup_keys_put h.nodup, fun user => ?_, fun user => ?_⟩
  · rw [Organization.enroll, mem_keys_put, h.keys]
    simp only [mem_append, mem_singleton, exists_or]
    refine or_congr_right ⟨fun hu => ⟨pair.2, by rw [hu]⟩, ?_⟩
    rintro ⟨role, hp⟩
    exact congrArg Prod.fst hp
  · rw [Organization.enroll, value?_put, rolesOf_concat]
    split
    · next hu => simp [hu, h.roles]
    · exact h.roles user

theorem holds_memberships (o : Organization) : Holds o.memberships o.assignments := by
  rw [memberships_eq]
  induction o.assignments using reverseRecOn with
  | nil => exact ⟨nodup_nil, by simp [OrderedMap.keys], fun _ => rfl⟩
  | append_singleton pairs pair ih =>
    rw [foldl_append]
    exact ih.enroll pair

/-! ### Names in order -/

theorem perm_sortNames (names : List String) : (sortNames names).Perm names := mergeSort_perm ..

theorem sortNames_strict {ns : List String} (h : ns.Nodup) : (sortNames ns).Pairwise (· < ·) :=
  ((FileTree.pairwise_mergeSort_names ns).and ((perm_sortNames ns).nodup_iff.mpr h)).imp
    fun hab => Std.lt_of_le_of_ne hab.1 hab.2

/-! ### What a document lists -/

/-- The entries of one of the lists of a document. -/
def entries (e : Element) (list entry : String) : List Element :=
  ((e.find? (.plain list)).map fun found => found.findAll (.plain entry)).getD []

def textIn (e : Element) (stem : String) : Option String := (e.find? (.plain stem)).bind Element.text?

/-- Users, roles and memberships that a document lists. -/
structure Lists (e : Element) (users roles : List String) (members : List (String × String)) : Prop where
  users : (entries e "users" "user").map (·.tag.get? "userName") = users.map some
  roles : (entries e "roles" "role").map (·.tag.get? "name") = roles.map some
  members : (entries e "memberships" "membership").map (fun m => (textIn m "userName", textIn m "roleName"))
    = members.map fun pair => (some pair.1, some pair.2)

/-- The root of the document. -/
def root (o : Organization) : Element := ⟨{ name := ⟨some space, "Organization"⟩, declared := [space] }, o.parts⟩

def users (o : Organization) : List String := sortNames o.memberships.keys

def members (o : Organization) : List (String × String) :=
  o.users.flatMap fun user => (rolesOf o.assignments user).map fun role => (user, role)

theorem findAll_map {α : Type} {tag : Tag} (s : String) (as : α → List (String × String))
    (c : α → List Node) (its : List α) :
    Element.findAll ⟨tag, its.map fun a => part s (as a) (c a)⟩ (.plain s)
      = its.map fun a => ⟨tagOf (.plain s) (as a), c a⟩ := by
  induction its with
  | nil => rfl
  | cons a its ih =>
    have hl : (tagOf (.plain s) (as a)).is (.plain s) := is_iff.mpr rfl
    rw [Element.findAll, Element.children] at ih ⊢
    rw [map_cons, part, elementsAmong_element, filter_cons, if_pos hl, ih, map_cons]

theorem parts_eq (o : Organization) : o.parts = [part "customUserInfoDefinitions" [] [],
    part "users" [] (o.users.map user), part "roles" [] ((sortNames (o.roles.map Role.name)).map
      fun name => part "role" [("name", name)] [labelled "displayName" name]),
    part "groups" [] [part "group" [("name", group)] [labelled "displayName" group]],
    part "memberships" [] (o.members.map fun pair => membership pair.1 pair.2)] := by
  simp only [members, map_flatMap, map_map, Function.comp_def, ← (holds_memberships o).roles]
  rfl

theorem lists_root (o : Organization) : Lists o.root o.users (sortNames (o.roles.map Role.name)) o.members := by
  have hr : o.root.find? (.plain "roles") = some ⟨tagOf (.plain "roles") [], (sortNames (o.roles.map Role.name)).map
      fun name => part "role" [("name", name)] [labelled "displayName" name]⟩ := rfl
  have hm : o.root.find? (.plain "memberships") = some ⟨tagOf (.plain "memberships") [],
      o.members.map fun pair => membership pair.1 pair.2⟩ := by
    rw [root, parts_eq]
    rfl
  refine ⟨?_, ?_, ?_⟩
  · refine (congrArg (map _) (findAll_map "user" _ _ o.users)).trans ?_
    rw [map_map]
    exact map_congr_left fun name _ => rfl
  · rw [entries, hr, Option.map_some, Option.getD_some, findAll_map, map_map]
    exact map_congr_left fun name _ => rfl
  · rw [entries, hm]
    refine (congrArg (map _) (findAll_map "membership" _ _ o.members)).trans ?_
    rw [map_map]
    refine map_congr_left fun pair _ => ?_
    change (leadingText? [.text pair.1], leadingText? [.text pair.2]) = _
    simp [leadingText?]

/-! ### Who is listed -/

theorem mem_assignments {o : Organization} {pair : String × String} : pair ∈ o.assignments ↔
    ∃ role ∈ o.roles, role.name = pair.2 ∧ ∃ a ∈ role.actors, a.name = pair.1 := by
  simp only [assignments, mem_flatMap, mem_map]
  constructor
  · rintro ⟨role, hr, a, ha, rfl⟩
    exact ⟨role, hr, rfl, a, ha, rfl⟩
  · rintro ⟨role, hr, hn, a, ha, hu⟩
    exact ⟨role, hr, a, ha, Prod.ext hu hn⟩

theorem mem_users {o : Organization} {user : String} : user ∈ o.users ↔ ∃ role, (user, role) ∈ o.assignments := by
  rw [users, (perm_sortNames _).mem_iff, (holds_memberships o).keys]

theorem mem_members {o : Organization} {pair : String × String} : pair ∈ o.members ↔ pair ∈ o.assignments := by
  obtain ⟨user, role⟩ := pair
  simp only [members, mem_flatMap, mem_map, mem_rolesOf, mem_users]
  constructor
  · rintro ⟨user', -, role', hp, heq⟩
    exact heq ▸ hp
  · exact fun hp => ⟨user, ⟨role, hp⟩, role, hp, rfl⟩

theorem nodup_members (o : Organization) : o.members.Nodup := by
  have hu : o.users.Nodup := (perm_sortNames _).nodup_iff.mpr (holds_memberships o).nodup
  refine nodup_flatMap.mpr ⟨fun user _ => ?_, hu.imp fun {user b} hne => ?_⟩
  · exact (nodup_eraseDups _).map fun _ _ heq => congrArg Prod.snd heq
  · refine disjoint_left.mpr fun pair hp hp' => ?_
    obtain ⟨role, -, rfl⟩ := mem_map.mp hp
    obtain ⟨role', -, heq⟩ := mem_map.mp hp'
    exact hne (congrArg Prod.fst heq).symm

theorem all_elementsBelow_map {α : Type} (p : Element → Bool) (f : α → Node) (is : List α) :
    (elementsBelow (is.map f)).all p = is.all fun a => (f a).elements.all p := by
  induction is with
  | nil => simp
  | cons a is ih => rw [map_cons, elementsBelow_cons, all_append, ih, all_cons]

theorem mem_sortNames {names : List String} {name : String} : name ∈ sortNames names ↔ name ∈ names :=
  (perm_sortNames names).mem_iff

theorem listed_of_mem_members {o : Organization} {pair : String × String} (h : pair ∈ o.members) :
    pair.1 ∈ o.users ∧ pair.2 ∈ sortNames (o.roles.map Role.name) := by
  have hp := mem_members.mp h
  obtain ⟨role, hr, hn, -⟩ := mem_assignments.mp hp
  exact ⟨mem_users.mpr ⟨pair.2, hp⟩, mem_sortNames.mpr (mem_map.mpr ⟨role, hr, hn⟩)⟩

/-- The document can be written just if all names can. -/
theorem isWritable_root (o : Organization) :
    o.root.isWritable = (sortNames (o.roles.map Role.name) ++ o.users).all isAllowedText := by
  have hf : isAllowedText "false" ∧ isAllowedText "bpm" ∧ isAllowedText group := by decide
  have ht : ∀ s, (Node.text s).elements = [] := fun s => elements_leaf rfl
  have hw : o.root.isWritable ↔ (∀ name ∈ o.users, isAllowedText name) ∧
      (∀ name ∈ sortNames (o.roles.map Role.name), isAllowedText name) ∧
      ∀ user role, (user, role) ∈ o.members → isAllowedText user ∧ isAllowedText role := by
    rw [Element.isWritable, Element.elements, root, parts_eq]
    simp only [elementsBelow_cons, part, elements_element, all_cons, all_append, all_elementsBelow_map]
    simp [tagOf, user, membership, labelled, part, ht, hf]
  rw [Bool.eq_iff_iff, hw, all_append, Bool.and_eq_true, all_eq_true, all_eq_true]
  constructor
  · rintro ⟨hu, hr, -⟩
    exact ⟨hr, hu⟩
  · rintro ⟨hr, hu⟩
    refine ⟨hu, hr, fun user role hp => ?_⟩
    exact ⟨hu _ (listed_of_mem_members hp).1, hr _ (listed_of_mem_members hp).2⟩

/-- Without roles there is no document. With them it lists every user once, every role as often as it is there, and
    every pair of a user and a role that the user takes once. -/
theorem assignments_listed_once (o : Organization) :
    (o.roles = [] → o.toDocument = .error .missingRoles ∧ Failure.missingRoles.kind = .document) ∧
    (o.roles ≠ [] → ∃ e users roles members,
      o.toDocument = (if (roles ++ users).all isAllowedText then .ok (Document.render { root := e })
        else .error .forbiddenText) ∧
      Lists e users roles members ∧ users.Pairwise (· < ·) ∧
      (∀ user, user ∈ users ↔ ∃ role ∈ o.roles, ∃ actor ∈ role.actors, actor.name = user) ∧
      roles.Pairwise (· ≤ ·) ∧ roles.Perm (o.roles.map Role.name) ∧
      members = users.flatMap (fun user => (rolesOf o.assignments user).map fun role => (user, role)) ∧
      members.Nodup ∧ (∀ user role, (user, role) ∈ members ↔
        ∃ r ∈ o.roles, r.name = role ∧ ∃ actor ∈ r.actors, actor.name = user) ∧
      (∀ pair ∈ members, pair.1 ∈ users ∧ pair.2 ∈ roles) ∧ ∀ user ∈ users, ∃ role, (user, role) ∈ members) := by
  refine ⟨fun hn => ⟨by rw [toDocument, hn]; rfl, rfl⟩, fun hn => ?_⟩
  refine ⟨o.root, o.users, sortNames (o.roles.map Role.name), o.members, ?_, lists_root o,
    sortNames_strict (holds_memberships o).nodup, fun user => ?_, FileTree.pairwise_mergeSort_names _,
    perm_sortNames _, rfl, nodup_members o, fun user role => mem_members.trans mem_assignments,
    fun pair => listed_of_mem_members, fun user hu => ?_⟩
  · rw [toDocument, if_neg (by simpa using hn), ← isWritable_root]
    rfl
  · simp only [mem_users, mem_assignments]
    constructor
    · rintro ⟨-, role, h, -, hu⟩
      exact ⟨role, h, hu⟩
    · rintro ⟨role, h, hu⟩
      exact ⟨role.name, role, h, rfl, hu⟩
  · obtain ⟨role, hp⟩ := mem_users.mp hu
    exact ⟨role, mem_members.mpr hp⟩

/-- Two roles with one name, and an actor who has a role twice. -/
def office : Organization where
  roles := [⟨"1", "Clerk", [⟨"z", "Zoe"⟩, ⟨"a", "Ann"⟩, ⟨"b", "Ann"⟩]⟩, ⟨"2", "Boss", [⟨"a", "Ann"⟩]⟩,
    ⟨"3", "Clerk", [⟨"a", "Ann"⟩]⟩]

theorem assignments_listed_once_office : office.roles ≠ [] ∧ ∃ e users roles members,
    Lists e users roles members ∧ users.Pairwise (· < ·) ∧ members.Nodup ∧
    members = users.flatMap fun user => (rolesOf office.assignments user).map fun role => (user, role) := by
  have h : office.roles ≠ [] := by decide
  obtain ⟨e, users, roles, members, -, hl, hu, -, -, -, hm, hn, -⟩ := (assignments_listed_once office).2 h
  exact ⟨h, e, users, roles, members, hl, hu, hn, hm⟩

example : rolesOf office.assignments "Ann" = ["Clerk", "Boss"] := by decide +kernel

end ProcessForge.Organization
