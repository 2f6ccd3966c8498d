/- GID: Pypga/Foundation/NamedTree
   generality: G
   digest: Trees with named leaves and branches, and when joining the names along a path loses none. -/

import Mathlib.Data.List.Basic
import Mathlib.Data.List.Nodup

set_option autoImplicit false
set_option relaxedAutoImplicit false

namespace Pypga.Foundation.NamedTree

/-- The entries of a node, one after the other; a branch leads to another node. -/
inductive Tree (ν : Type*)
  | empty
  | leaf (name : ν) (others : Tree ν)
  | branch (name : ν) (inside others : Tree ν)
  deriving DecidableEq

namespace Tree

variable {ν : Type*}

def leaves : Tree ν → List ν
  | empty => []
  | leaf name others => name :: others.leaves
  | branch _ _ others => others.leaves

def branches : Tree ν → List (ν × Tree ν)
  | empty => []
  | leaf _ others => others.branches
  | branch name inside others => (name, inside) :: others.branches

def names : Tree ν → List ν
  | empty => []
  | leaf name others => name :: others.names
  | branch name _ others => name :: others.names

def Unique : Tree ν → Prop
  | empty => True
  | leaf name others => name ∉ others.names ∧ others.Unique
  | branch name inside others => name ∉ others.names ∧ inside.Unique ∧ others.Unique

def paths : Tree ν → List (List ν)
  | empty => []
  | leaf name others => [name] :: others.paths
  | branch name inside others => inside.paths.map (name :: ·) ++ others.paths

def inner : Tree ν → List (Tree ν)
  | empty => []
  | leaf _ others => others.inner
  | branch _ inside others => inside :: (inside.inner ++ others.inner)

def nodes (t : Tree ν) : List (Tree ν) := t :: t.inner

instance decidableUnique [DecidableEq ν] : (t : Tree ν) → Decidable t.Unique
  | empty => .isTrue trivial
  | leaf _ others =>
    have := decidableUnique others
    inferInstanceAs (Decidable (_ ∧ _))
  | branch _ inside others =>
    have := decidableUnique inside
    have := decidableUnique others
    inferInstanceAs (Decidable (_ ∧ _ ∧ _))

theorem leaf_name {t : Tree ν} {x : ν} (member : x ∈ t.leaves) : x ∈ t.names := by
  induction t with
  | empty => cases member
  | leaf name others ih =>
    rcases List.mem_cons.mp member with rfl | later
    · exact List.mem_cons_self
    · exact List.mem_cons_of_mem name (ih later)
  | branch name inside others _ ih => exact List.mem_cons_of_mem name (ih member)

theorem branch_name {t inside : Tree ν} {x : ν} (member : (x, inside) ∈ t.branches) :
    x ∈ t.names := by
  induction t with
  | empty => cases member
  | leaf name others ih => exact List.mem_cons_of_mem name (ih member)
  | branch name inside others _ ih =>
    rcases List.mem_cons.mp member with same | later
    · cases same
      exact List.mem_cons_self
    · exact List.mem_cons_of_mem name (ih later)

private theorem mem_paths {t : Tree ν} {p : List ν} : p ∈ t.paths ↔
    (∃ x ∈ t.leaves, p = [x]) ∨ ∃ x inside, (x, inside) ∈ t.branches ∧ ∃ q ∈ inside.paths, p = x :: q := by
  induction t with
  | empty => simp [paths, leaves, branches]
  | leaf name others ih =>
    simp only [paths, leaves, branches, List.mem_cons, ih]
    constructor
    · rintro (rfl | ⟨x, member, rfl⟩ | deeper)
      · exact .inl ⟨name, .inl rfl, rfl⟩
      · exact .inl ⟨x, .inr member, rfl⟩
      · exact .inr deeper
    · rintro (⟨x, rfl | member, rfl⟩ | deeper)
      · exact .inl rfl
      · exact .inr (.inl ⟨x, member, rfl⟩)
      · exact .inr (.inr deeper)
  | branch name inside others _ ih =>
    simp only [paths, leaves, branches, List.mem_append, List.mem_map, List.mem_cons, ih]
    constructor
    · rintro (⟨q, member, rfl⟩ | leaf | ⟨x, inner, member, deeper⟩)
      · exact .inr ⟨name, inside, .inl rfl, q, member, rfl⟩
      · exact .inl leaf
      · exact .inr ⟨x, inner, .inr member, deeper⟩
    · rintro (leaf | ⟨x, inner, same | member, q, there, rfl⟩)
      · exact .inr (.inl leaf)
      · cases same
        exact .inl ⟨q, there, rfl⟩
      · exact .inr (.inr ⟨x, inner, member, q, there, rfl⟩)

theorem cons_mem_paths {t : Tree ν} {x : ν} {p : List ν} : x :: p ∈ t.paths ↔
    (x ∈ t.leaves ∧ p = []) ∨ ∃ inside, (x, inside) ∈ t.branches ∧ p ∈ inside.paths := by
  rw [mem_paths]
  constructor
  · rintro (⟨_, leaf, same⟩ | ⟨_, inside, branch, _, below, same⟩)
    · obtain ⟨rfl, rfl⟩ := List.cons.inj same
      exact .inl ⟨leaf, rfl⟩
    · obtain ⟨rfl, rfl⟩ := List.cons.inj same
      exact .inr ⟨inside, branch, below⟩
  · rintro (⟨leaf, rfl⟩ | ⟨inside, branch, below⟩)
    · exact .inl ⟨x, leaf, rfl⟩
    · exact .inr ⟨x, inside, branch, p, below, rfl⟩

theorem path_nonempty {t : Tree ν} {p : List ν} (member : p ∈ t.paths) : p ≠ [] := by
  rcases mem_paths.mp member with ⟨x, _, rfl⟩ | ⟨x, inside, _, q, _, rfl⟩ <;> exact List.cons_ne_nil _ _

private theorem unique_inside {t inside : Tree ν} {x : ν} (unique : t.Unique)
    (member : (x, inside) ∈ t.branches) : inside.Unique := by
  induction t with
  | empty => cases member
  | leaf name others ih => exact ih unique.2 member
  | branch name inside others _ ih =>
    rcases List.mem_cons.mp member with same | later
    · cases same
      exact unique.2.1
    · exact ih unique.2.2 later

private theorem not_leaf_and_branch {t inside : Tree ν} {x : ν} (unique : t.Unique)
    (leaf : x ∈ t.leaves) :
    (x, inside) ∉ t.branches := by
  intro branch
  induction t with
  | empty => cases leaf
  | leaf name others ih =>
    rcases List.mem_cons.mp leaf with rfl | later
    · exact unique.1 (branch_name branch)
    · exact ih unique.2 later branch
  | branch name node others _ ih =>
    rcases List.mem_cons.mp branch with same | later
    · cases same
      exact unique.1 (leaf_name leaf)
    · exact ih unique.2.2 leaf later

private theorem branch_unique {t inside inside' : Tree ν} {x : ν} (unique : t.Unique)
    (first : (x, inside) ∈ t.branches) (second : (x, inside') ∈ t.branches) : inside = inside' := by
  induction t with
  | empty => cases first
  | leaf name others ih => exact ih unique.2 first second
  | branch name node others _ ih =>
    rcases List.mem_cons.mp first with same | later
    · cases same
      rcases List.mem_cons.mp second with same | later
      · cases same
        rfl
      · exact absurd (branch_name later) unique.1
    · rcases List.mem_cons.mp second with same | other
      · cases same
        exact absurd (branch_name later) unique.1
      · exact ih unique.2.2 later other

private theorem paths_through {t : Tree ν} (unique : t.Unique) {x : ν} {p q : List ν}
    (first : x :: p ∈ t.paths) (second : x :: q ∈ t.paths) :
    (p = [] ∧ q = []) ∨
      ∃ inside, (x, inside) ∈ t.branches ∧ p ∈ inside.paths ∧ q ∈ inside.paths := by
  rcases cons_mem_paths.mp first with ⟨leaf, rfl⟩ | ⟨inside, branch, below⟩
  · rcases cons_mem_paths.mp second with ⟨-, rfl⟩ | ⟨inside, branch, -⟩
    · exact .inl ⟨rfl, rfl⟩
    · exact absurd branch (not_leaf_and_branch unique leaf)
  · rcases cons_mem_paths.mp second with ⟨leaf, -⟩ | ⟨inside', branch', below'⟩
    · exact absurd branch (not_leaf_and_branch unique leaf)
    · cases branch_unique unique branch branch'
      exact .inr ⟨inside, branch, below, below'⟩

private theorem nodes_inside {t inside node : Tree ν} {x : ν} (member : (x, inside) ∈ t.branches)
    (within : node ∈ inside.nodes) : node ∈ t.inner := by
  induction t with
  | empty => cases member
  | leaf name others ih => exact ih member
  | branch name next others _ ih =>
    rcases List.mem_cons.mp member with same | later
    · cases same
      rcases List.mem_cons.mp within with rfl | deeper
      · exact List.mem_cons_self
      · exact List.mem_cons_of_mem _ (List.mem_append_left _ deeper)
    · exact List.mem_cons_of_mem _ (List.mem_append_right _ (ih later))

private theorem way_exists {t node : Tree ν} (within : node ∈ t.nodes) :
    ∃ way : List ν, ∀ p ∈ node.paths, way ++ p ∈ t.paths := by
  induction t with
  | empty =>
    cases List.mem_singleton.mp within
    exact ⟨[], fun p member => member⟩
  | leaf name others ih =>
    rcases List.mem_cons.mp within with rfl | deeper
    · exact ⟨[], fun p member => member⟩
    · obtain ⟨way, leads⟩ := ih (List.mem_cons_of_mem others deeper)
      exact ⟨way, fun p member => List.mem_cons_of_mem _ (leads p member)⟩
  | branch name inside others first second =>
    rcases List.mem_cons.mp within with rfl | deeper
    · exact ⟨[], fun p member => member⟩
    rw [inner, ← List.cons_append] at deeper
    rcases List.mem_append.mp deeper with there | later
    · obtain ⟨way, leads⟩ := first there
      refine ⟨name :: way, fun p member => List.mem_append_left _ ?_⟩
      exact List.mem_map_of_mem (leads p member)
    · obtain ⟨way, leads⟩ := second (List.mem_cons_of_mem others later)
      exact ⟨way, fun p member => List.mem_append_right _ (leads p member)⟩

end Tree

variable {ν α : Type*}

private theorem separated_eq {x y u v : List α} {sep : α} (same : x ++ sep :: u = y ++ sep :: v) :
    x = y ∨ (∃ z, y = x ++ sep :: z ∧ u = z ++ sep :: v) ∨
      (∃ z, x = y ++ sep :: z ∧ v = z ++ sep :: u) := by
  rcases List.append_eq_append_iff.mp same with ⟨more, rfl, rest⟩ | ⟨more, rfl, rest⟩
  · cases more with
    | nil => exact .inl (List.append_nil x).symm
    | cons a z =>
      rw [List.cons_append] at rest
      obtain ⟨rfl, rfl⟩ := List.cons.inj rest
      exact .inr (.inl ⟨z, rfl, rfl⟩)
  · cases more with
    | nil => exact .inl (List.append_nil y)
    | cons a z =>
      rw [List.cons_append] at rest
      obtain ⟨rfl, rfl⟩ := List.cons.inj rest
      exact .inr (.inr ⟨z, rfl, rfl⟩)

def Extends (sep : α) (x : List α) (p : List (List α)) (y : List α) (q : List (List α)) : Prop :=
  p ≠ [] ∧ ∃ z, y = x ++ sep :: z ∧ [sep].intercalate p = [sep].intercalate (z :: q)

private theorem joined_cons (sep : α) (x : List α) {p : List (List α)} (more : p ≠ []) :
    [sep].intercalate (x :: p) = x ++ sep :: [sep].intercalate p := by
  rw [List.intercalate_cons_of_ne_nil more, List.append_assoc]
  rfl

private theorem joined_of_extends {sep : α} {x y : List α} {p q : List (List α)}
    (longer : Extends sep x p y q) :
    [sep].intercalate (x :: p) = [sep].intercalate (y :: q) := by
  obtain ⟨more, z, rfl, same⟩ := longer
  rw [joined_cons sep x more, same]
  cases q with
  | nil => rw [List.intercalate_singleton, List.intercalate_singleton]
  | cons b q =>
    rw [joined_cons sep z (List.cons_ne_nil b q), joined_cons sep _ (List.cons_ne_nil b q),
      List.append_assoc, List.cons_append]

private theorem extends_of_joined {sep : α} {x y : List α} (differ : x ≠ y) {p q : List (List α)}
    (same : [sep].intercalate (x :: p) = [sep].intercalate (y :: q)) :
    Extends sep x p y q ∨ Extends sep y q x p := by
  cases p with
  | nil =>
    cases q with
    | nil =>
      rw [List.intercalate_singleton, List.intercalate_singleton] at same
      exact absurd same differ
    | cons b q =>
      rw [List.intercalate_singleton, joined_cons sep y (List.cons_ne_nil b q)] at same
      refine .inr ⟨List.cons_ne_nil b q, _, same, ?_⟩
      rw [List.intercalate_singleton]
  | cons a p =>
    rw [joined_cons sep x (List.cons_ne_nil a p)] at same
    cases q with
    | nil =>
      rw [List.intercalate_singleton] at same
      refine .inl ⟨List.cons_ne_nil a p, _, same.symm, ?_⟩
      rw [List.intercalate_singleton]
    | cons b q =>
      rw [joined_cons sep y (List.cons_ne_nil b q)] at same
      rcases separated_eq same with rfl | ⟨z, longer, rest⟩ | ⟨z, longer, rest⟩
      · exact absurd rfl differ
      · refine .inl ⟨List.cons_ne_nil a p, z, longer, ?_⟩
        rw [rest, joined_cons sep z (List.cons_ne_nil b q)]
      · refine .inr ⟨List.cons_ne_nil b q, z, longer, ?_⟩
        rw [rest, joined_cons sep z (List.cons_ne_nil a p)]

section Joined

variable (letters : ν → List α) (sep : α)

/-- The names of a path in one. -/
def joined (p : List ν) : List α := [sep].intercalate (p.map letters)

/-- At this node the name of one entry spells out a way below the branch of another. -/
def Overlap (t : Tree ν) : Prop :=
  ∃ x inside p y q, (x, inside) ∈ t.branches ∧ p ∈ inside.paths ∧ y :: q ∈ t.paths ∧
    Extends sep (letters x) (p.map letters) (letters y) (q.map letters)

variable {letters sep}

private theorem joined_append (way : List ν) {p q : List ν} (some : p ≠ []) (some' : q ≠ [])
    (same : joined letters sep p = joined letters sep q) :
    joined letters sep (way ++ p) = joined letters sep (way ++ q) := by
  induction way with
  | nil => exact same
  | cons x way ih =>
    have more : (way ++ p).map letters ≠ [] := by simp [some]
    have more' : (way ++ q).map letters ≠ [] := by simp [some']
    rw [joined, joined, List.cons_append, List.cons_append, List.map_cons, List.map_cons,
      joined_cons sep _ more, joined_cons sep _ more']
    exact congrArg (fun rest => letters x ++ sep :: rest) ih

private theorem overlap_of_extends {t : Tree ν} {x y : ν} {p q : List ν} (first : x :: p ∈ t.paths)
    (second : y :: q ∈ t.paths)
    (longer : Extends sep (letters x) (p.map letters) (letters y) (q.map letters)) :
    Overlap letters sep t := by
  rcases Tree.cons_mem_paths.mp first with ⟨-, rfl⟩ | ⟨inside, branch, below⟩
  · exact absurd rfl longer.1
  · exact ⟨x, inside, p, y, q, branch, below, second, longer⟩

private theorem joined_tail {x : ν} {p q : List ν} (some : p ≠ []) (some' : q ≠ [])
    (same : joined letters sep (x :: p) = joined letters sep (x :: q)) :
    joined letters sep p = joined letters sep q := by
  have more : p.map letters ≠ [] := by simpa using some
  have more' : q.map letters ≠ [] := by simpa using some'
  rw [joined, joined, List.map_cons, List.map_cons, joined_cons sep _ more,
    joined_cons sep _ more'] at same
  exact (List.cons.inj (List.append_cancel_left same)).2

private theorem joined_injective {t : Tree ν} (spelling : Function.Injective letters)
    (unique : t.Unique)
    (free : ∀ node ∈ t.nodes, ¬ Overlap letters sep node) {p q : List ν} (first : p ∈ t.paths)
    (second : q ∈ t.paths) (same : joined letters sep p = joined letters sep q) : p = q := by
  induction p generalizing t q with
  | nil => exact absurd rfl (Tree.path_nonempty first)
  | cons x p ih =>
    cases q with
    | nil => exact absurd rfl (Tree.path_nonempty second)
    | cons y q =>
      by_cases differ : x = y
      · subst differ
        rcases Tree.paths_through unique first second with ⟨rfl, rfl⟩ | ⟨inside, branch, below, below'⟩
        · rfl
        · have rest := joined_tail (Tree.path_nonempty below) (Tree.path_nonempty below') same
          have deeper : ∀ node ∈ inside.nodes, ¬ Overlap letters sep node := fun node within =>
            free node (List.mem_cons_of_mem t (Tree.nodes_inside branch within))
          rw [ih (Tree.unique_inside unique branch) deeper below below' rest]
      · -- the paths part at this node, so one of the two names spells out the other path
        have spelled : letters x ≠ letters y := fun eq => differ (spelling eq)
        have here := free t List.mem_cons_self
        rcases extends_of_joined spelled same with longer | longer
        · exact absurd (overlap_of_extends first second longer) here
        · exact absurd (overlap_of_extends second first longer) here

/-- Joining the names tells all leaves apart exactly if no node has an overlap. -/
theorem joined_injective_iff (spelling : Function.Injective letters) {t : Tree ν} (unique : t.Unique) :
    (∀ p ∈ t.paths, ∀ q ∈ t.paths, joined letters sep p = joined letters sep q → p = q) ↔
      ∀ node ∈ t.nodes, ¬ Overlap letters sep node := by
  constructor
  · rintro apart node within ⟨x, inside, p, y, q, branch, below, other, longer⟩
    obtain ⟨way, leads⟩ := Tree.way_exists within
    have below : x :: p ∈ node.paths := Tree.cons_mem_paths.mpr (.inr ⟨inside, branch, below⟩)
    have same := apart _ (leads _ below) _ (leads _ other)
      (joined_append way (List.cons_ne_nil x p) (List.cons_ne_nil y q) (joined_of_extends longer))
    obtain ⟨rfl, -⟩ := List.cons.inj (List.append_cancel_left same)
    obtain ⟨-, z, size, -⟩ := longer
    have size := congrArg List.length size
    rw [List.length_append, List.length_cons] at size
    omega
  · intro free p first q second same
    exact joined_injective spelling unique free first second same

end Joined

end Pypga.Foundation.NamedTree
