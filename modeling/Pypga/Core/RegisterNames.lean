/- GID: Pypga/Core/RegisterNames
   generality: G
   digest: The names of the registers of a module tree and the addresses they are looked up at. -/

import Pypga.Foundation.NamedTree
import Pypga.Foundation.StoreSequence

set_option autoImplicit false
set_option relaxedAutoImplicit false

namespace Pypga.Core.RegisterNames

open Pypga.Foundation.NamedTree
open Pypga.Foundation.StoreSequence

/-- A module class by its annotations: the leaves are the names of its registers, the branches
those of its submodules with their classes. -/
abbrev ModuleClass := Foundation.NamedTree.Tree String

/-- A module instance: its `_name` and its `_parent`. -/
inductive Instance
  | top (name : String)
  | sub (name : String) (parent : Instance)
  deriving DecidableEq

/-- The loop of `_get_parents`: the name of each parent is inserted in front. -/
def Instance.insertParents : Instance → List String → List String
  | .top name, parents => name :: parents
  | .sub name parent, parents => parent.insertParents (name :: parents)

def Instance.getParents (i : Instance) : List String := i.insertParents []

structure Register where
  owner : Instance
  name : String
  deriving DecidableEq

def Register.getFullName (r : Register) : String :=
  let parents := r.owner.getParents
  parents.headD "" ++ "." ++ "_".intercalate (parents.tail ++ [r.name]) ++ "_csr"

/-- The registers of an instance of a class, with those of the submodules that `_init_module`
creates below it. -/
def registers : ModuleClass → Instance → List Register
  | .empty, _ => []
  | .leaf name others, i => ⟨i, name⟩ :: registers others i
  | .branch name submodule others, i => registers submodule (.sub name i) ++ registers others i

structure Row where
  name : String
  address : ℕ
  size : ℕ
  mode : String
  deriving DecidableEq

structure CsrMap where
  address : String → Option ℕ
  size : String → Option ℕ
  mode : String → Option String

/-- `CsrMap.__init__`: each row sets the entries of its name, also if they have been set. -/
def CsrMap.load (rows : List Row) : CsrMap where
  address := storeAll (rows.map fun row => (row.name, some row.address)) fun _ => none
  size := storeAll (rows.map fun row => (row.name, some row.size)) fun _ => none
  mode := storeAll (rows.map fun row => (row.name, some row.mode)) fun _ => none

def CsrMap.getItem (m : CsrMap) (item : String) : Option (ℕ × ℕ × String) := do
  pure (← m.address item, ← m.size item, ← m.mode item)

inductive Call (β : Type*)
  | read
  | readArray (length : ℕ)
  | write (value : β)
  | writeArray (value : List β)

/-- The calls of `read_from_address` and `write_to_address`. -/
inductive Access (β : Type*)
  | readFromAddress (address length : ℕ)
  | writeToAddress (address : ℕ) (value : β ⊕ List β)

def Access.address {β : Type*} : Access β → ℕ
  | .readFromAddress address _ | .writeToAddress address _ => address

namespace CsrMap

variable {β : Type*} (m : CsrMap)

/-- A missing name raises a `KeyError`. -/
def nameToAddress (name : String) : Option ℕ := m.address name

def call (name : String) : Call β → Option (Access β)
  | .read => (m.nameToAddress name).map fun address => .readFromAddress address 1
  | .readArray length => (m.nameToAddress name).map fun address => .readFromAddress address length
  | .write value => (m.nameToAddress name).map fun address => .writeToAddress address (.inl value)
  | .writeArray value => (m.nameToAddress name).map fun address => .writeToAddress address (.inr value)

variable {m}

private theorem call_address {name : String} {address : ℕ}
    (found : m.nameToAddress name = some address)
    (c : Call β) : ∃ access, m.call name c = some access ∧ access.address = address := by
  cases c <;> simp only [call, found, Option.map_some] <;> exact ⟨_, rfl, rfl⟩

private theorem load_of_unique {rows : List Row} {row : Row} (member : row ∈ rows)
    (unique : ∀ other ∈ rows, other.name = row.name → other = row) :
    (load rows).nameToAddress row.name = some row.address ∧
      (load rows).getItem row.name = some (row.address, row.size, row.mode) := by
  have entry {α : Type} (field : Row → α) :
      storeAll (rows.map fun row => (row.name, some (field row))) (fun _ => none) row.name =
        some (field row) := by
    have last : lastStore (rows.map fun row => (row.name, some (field row))) row.name =
        some (some (field row)) := by
      apply last_store_of_mem
      · exact List.mem_map.mpr ⟨row, member, rfl⟩
      · intro s there here
        obtain ⟨other, inside, rfl⟩ := List.mem_map.mp there
        rw [unique other inside here]
    rw [store_all_eq, last]
    rfl
  constructor
  · exact entry Row.address
  · simp only [getItem, load, entry]
    rfl

end CsrMap

section Chains

def Register.chain (r : Register) : List String := r.owner.getParents ++ [r.name]

private theorem insert_parents_eq (i : Instance) (parents : List String) :
    i.insertParents parents = i.getParents ++ parents := by
  induction i generalizing parents with
  | top name => rfl
  | sub name parent ih =>
    rw [Instance.getParents, Instance.insertParents, Instance.insertParents, ih, ih [name],
      List.append_assoc]
    rfl

theorem get_parents_sub (name : String) (parent : Instance) :
    (Instance.sub name parent).getParents = parent.getParents ++ [name] :=
  insert_parents_eq parent [name]

private theorem get_parents_ne_nil (i : Instance) : i.getParents ≠ [] := by
  cases i with
  | top name => exact List.cons_ne_nil _ _
  | sub name parent =>
    rw [get_parents_sub]
    exact List.append_ne_nil_of_right_ne_nil _ (List.cons_ne_nil _ _)

theorem get_parents_injective {i j : Instance} (same : i.getParents = j.getParents) : i = j := by
  induction i generalizing j with
  | top name =>
    cases j with
    | top other =>
      cases same
      rfl
    | sub other parent =>
      rw [get_parents_sub] at same
      have alone : [] ++ [name] = parent.getParents ++ [other] := same
      exact absurd (List.append_inj_left' alone rfl).symm (get_parents_ne_nil parent)
  | sub name parent ih =>
    cases j with
    | top other =>
      rw [get_parents_sub] at same
      have alone : parent.getParents ++ [name] = [] ++ [other] := same
      exact absurd (List.append_inj_left' alone rfl) (get_parents_ne_nil parent)
    | sub other parent' =>
      rw [get_parents_sub, get_parents_sub] at same
      obtain ⟨above, here⟩ := List.append_inj' same rfl
      rw [ih above, (List.cons.inj here).1]

private theorem chain_injective {r r' : Register} (same : r.chain = r'.chain) : r = r' := by
  obtain ⟨above, here⟩ := List.append_inj' same rfl
  obtain ⟨owner, name⟩ := r
  obtain ⟨owner', name'⟩ := r'
  cases get_parents_injective above
  cases here
  rfl

private theorem chains_registers (t : ModuleClass) (i : Instance) :
    (registers t i).map Register.chain = t.paths.map (i.getParents ++ ·) := by
  induction t generalizing i with
  | empty => rfl
  | leaf name others ih =>
    rw [registers, Tree.paths, List.map_cons, List.map_cons, ih]
    rfl
  | branch name submodule others first second =>
    rw [registers, Tree.paths, List.map_append, List.map_append, first, second, List.map_map]
    congr 1
    apply List.map_congr_left
    intro p _
    rw [get_parents_sub, List.append_assoc]
    rfl

private theorem chain_of_register {t : ModuleClass} {i : Instance} {r : Register}
    (member : r ∈ registers t i) : ∃ p ∈ t.paths, r.chain = i.getParents ++ p := by
  have there : r.chain ∈ (registers t i).map Register.chain := List.mem_map_of_mem member
  rw [chains_registers] at there
  obtain ⟨p, path, same⟩ := List.mem_map.mp there
  exact ⟨p, path, same.symm⟩

private theorem register_of_path {t : ModuleClass} (i : Instance) {p : List String}
    (path : p ∈ t.paths) :
    ∃ r ∈ registers t i, r.chain = i.getParents ++ p := by
  have there : i.getParents ++ p ∈ t.paths.map (i.getParents ++ ·) := List.mem_map_of_mem path
  rw [← chains_registers] at there
  exact List.mem_map.mp there

end Chains

section Addressing

/-- In this module an attribute is called like a submodule, an underscore and more, and what more
there is to the name spells out the way to a register of that submodule. -/
def Shadowed (t : ModuleClass) : Prop :=
  ∃ x submodule p y q z, (x, submodule) ∈ t.branches ∧ p ∈ submodule.paths ∧ y :: q ∈ t.paths ∧
    y = x ++ "_" ++ z ∧ "_".intercalate p = "_".intercalate (z :: q)

structure Listing (rs : List Register) where
  rows : List Row
  row : Register → Row
  listed : ∀ r ∈ rs, row r ∈ rows
  named : ∀ r ∈ rs, (row r).name = r.getFullName
  only : ∀ other ∈ rows, ∀ r ∈ rs, other.name = r.getFullName → ∃ r' ∈ rs, other = row r'
  apart : ∀ r ∈ rs, ∀ r' ∈ rs, (row r).address = (row r').address → r = r'

def Listing.consecutive (rs : List Register) : Listing rs where
  row r := ⟨r.getFullName, 0x80000800 + 4 * rs.idxOf r, 1, "rw"⟩
  rows := rs.map fun r => ⟨r.getFullName, 0x80000800 + 4 * rs.idxOf r, 1, "rw"⟩
  listed r member := List.mem_map_of_mem member
  named _ _ := rfl
  only := by
    intro other there r _ _
    obtain ⟨r', member', rfl⟩ := List.mem_map.mp there
    exact ⟨r', member', rfl⟩
  apart := by
    intro r member r' _ same
    apply (List.idxOf_inj member).mp
    dsimp only at same
    omega

def NamesApart (rs : List Register) : Prop :=
  ∀ r ∈ rs, ∀ r' ∈ rs, r ≠ r' → r.getFullName ≠ r'.getFullName

def OwnAddresses {rs : List Register} (l : Listing rs) : Prop :=
  ∀ r ∈ rs, ∀ {β : Type} (c : Call β), ∃ access,
    (CsrMap.load l.rows).call r.getFullName c = some access ∧
      access.address = (l.row r).address ∧ ∀ r' ∈ rs, r' ≠ r → access.address ≠ (l.row r').address

theorem own_addresses_iff {rs : List Register} (l : Listing rs) :
    OwnAddresses l ↔ NamesApart rs := by
  constructor
  · intro own r member r' member' differ same
    obtain ⟨access, called, address, -⟩ := own r member (β := Unit) .read
    obtain ⟨access', called', address', -⟩ := own r' member' (β := Unit) .read
    rw [same, called'] at called
    cases called
    exact differ (l.apart r member r' member' (address.symm.trans address'))
  · intro apart r member β c
    have unique : ∀ other ∈ l.rows, other.name = (l.row r).name → other = l.row r := by
      intro other there here
      rw [l.named r member] at here
      obtain ⟨r', member', rfl⟩ := l.only other there r member here
      by_cases differ : r' = r
      · rw [differ]
      · rw [l.named r' member'] at here
        exact absurd here (apart r' member' r member differ)
    obtain ⟨found, -⟩ := CsrMap.load_of_unique (l.listed r member) unique
    rw [l.named r member] at found
    obtain ⟨access, called, address⟩ := CsrMap.call_address found c
    refine ⟨access, called, address, ?_⟩
    intro r' member' differ same
    exact differ (l.apart r' member' r member (same.symm.trans address))

private theorem full_name_of_chain {r : Register} {top : String} {p : List String} (some : p ≠ [])
    (chain : r.chain = top :: p) :
    r.getFullName = top ++ "." ++ "_".intercalate p ++ "_csr" := by
  obtain ⟨owner, name⟩ := r
  obtain ⟨root, rest, parents⟩ := List.exists_cons_of_ne_nil (get_parents_ne_nil owner)
  rw [Register.chain, parents, List.cons_append] at chain
  obtain ⟨rfl, rfl⟩ := List.cons.inj chain
  simp only [Register.getFullName, parents, List.headD_cons, List.tail_cons]

private theorem full_name_eq_iff {r r' : Register} {top : String} {p q : List String}
    (some : p ≠ [])
    (some' : q ≠ []) (first : r.chain = top :: p) (second : r'.chain = top :: q) :
    r.getFullName = r'.getFullName ↔ joined String.toList '_' p = joined String.toList '_' q := by
  have letters (p : List String) : ("_".intercalate p).toList = joined String.toList '_' p := by
    rw [String.toList_intercalate]
    rfl
  rw [full_name_of_chain some first, full_name_of_chain some' second, ← String.toList_inj]
  simp only [String.toList_append, List.append_cancel_right_eq, List.append_cancel_left_eq, letters]

private theorem shadowed_iff (t : ModuleClass) : Shadowed t ↔ Overlap String.toList '_' t := by
  have letters (p : List String) :
      ("_".intercalate p).toList = ['_'].intercalate (p.map String.toList) := by
    rw [String.toList_intercalate]
    rfl
  constructor
  · rintro ⟨x, submodule, p, y, q, z, branch, below, other, rfl, same⟩
    have more : p.map String.toList ≠ [] := by simpa using Tree.path_nonempty below
    refine ⟨x, submodule, p, _, q, branch, below, other, more, z.toList, ?_, ?_⟩
    · simp
    · rw [← letters, same, letters]
      rfl
  · rintro ⟨x, submodule, p, y, q, branch, below, other, -, z, longer, same⟩
    refine ⟨x, submodule, p, y, q, String.ofList z, branch, below, other, ?_, ?_⟩
    · apply String.toList_inj.mp
      rw [longer]
      simp
    · apply String.toList_inj.mp
      rw [letters, letters, same]
      simp

/-- Different registers of a module tree have different names, and with a row for each of them every
access of a register goes to its own address, both exactly if no module of the tree shadows a
register of its submodules. -/
theorem addressing_iff (top : String) (t : ModuleClass) (unique : t.Unique)
    (l : Listing (registers t (.top top))) :
    (NamesApart (registers t (.top top)) ↔ ∀ m ∈ t.nodes, ¬ Shadowed m) ∧
    (OwnAddresses l ↔ ∀ m ∈ t.nodes, ¬ Shadowed m) := by
  have apart_iff : NamesApart (registers t (.top top)) ↔ ∀ m ∈ t.nodes, ¬ Shadowed m := by
    have spelling : Function.Injective String.toList := fun _ _ => String.toList_inj.mp
    simp only [shadowed_iff]
    rw [← joined_injective_iff spelling unique]
    constructor
    · intro apart p first q second same
      obtain ⟨r, member, chain⟩ := register_of_path (.top top) first
      obtain ⟨r', member', chain'⟩ := register_of_path (.top top) second
      have named := (full_name_eq_iff (Tree.path_nonempty first) (Tree.path_nonempty second)
        chain chain').mpr same
      by_cases differ : r = r'
      · rw [differ, chain'] at chain
        exact (List.append_cancel_left chain).symm
      · exact absurd named (apart r member r' member' differ)
    · intro injective r member r' member' differ same
      obtain ⟨p, first, chain⟩ := chain_of_register member
      obtain ⟨q, second, chain'⟩ := chain_of_register member'
      have same := (full_name_eq_iff (Tree.path_nonempty first) (Tree.path_nonempty second)
        chain chain').mp same
      rw [injective p first q second same] at chain
      exact differ (chain_injective (chain.trans chain'.symm))
  exact ⟨apart_iff, (own_addresses_iff l).trans apart_iff⟩

private theorem not_shadowed_of_prefix {m : ModuleClass}
    (free : ∀ s ∈ m.branches, ∀ y ∈ m.names, ¬ (s.1 ++ "_").toList <+: y.toList) : ¬ Shadowed m := by
  rintro ⟨x, submodule, p, y, q, z, branch, -, other, rfl, -⟩
  have named : x ++ "_" ++ z ∈ m.names := by
    rcases Tree.cons_mem_paths.mp other with ⟨leaf, -⟩ | ⟨inside, there, -⟩
    · exact Tree.leaf_name leaf
    · exact Tree.branch_name there
  apply free _ branch _ named
  rw [String.toList_append (s := x ++ "_")]
  exact List.prefix_append _ _

def leds : ModuleClass :=
  .leaf "state0" <| .branch "led0to3" (.leaf "led0_rate" <| .leaf "led3_on" .empty) <|
    .branch "led4to7" (.leaf "led0_rate" <| .leaf "led3_on" .empty) .empty

theorem addressing_iff_leds : OwnAddresses (Listing.consecutive (registers leds (.top "top"))) :=
  (addressing_iff "top" leds (by decide) (Listing.consecutive _)).2.mpr
    fun m member => not_shadowed_of_prefix (by revert m; decide)

/-- The registers `b_c` of `a` and `c` of `a_b`. -/
def clashing : ModuleClass :=
  .branch "a" (.leaf "b_c" .empty) <| .branch "a_b" (.leaf "c" .empty) .empty

theorem addressing_iff_counterexample :
    clashing.Unique ∧ ¬ NamesApart (registers clashing (.top "top")) ∧
      ¬ OwnAddresses (Listing.consecutive (registers clashing (.top "top"))) := by
  have apart : ¬ NamesApart (registers clashing (.top "top")) := by
    intro apart
    apply apart ⟨.sub "a" (.top "top"), "b_c"⟩ (by decide) ⟨.sub "a_b" (.top "top"), "c"⟩ (by decide)
      (by decide)
    decide
  exact ⟨by decide, apart, fun own => apart ((own_addresses_iff _).mp own)⟩

end Addressing

end Pypga.Core.RegisterNames
