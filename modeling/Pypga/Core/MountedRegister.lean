/- GID: Pypga/Core/MountedRegister
   generality: G
   digest: A memory register at its bus address, and what the access loops of the server do to it. -/

import Pypga.Core.IndexedArray

set_option autoImplicit false
set_option relaxedAutoImplicit false

namespace Pypga.Core.MountedRegister

open Pypga.Foundation.LittleEndian (Word)
open Pypga.Core.MemoryRegister
open Pypga.Core.IndexedArray
open Pypga.Remote.MonitorServer

/-- The board seen by the server: the register, the cycles by which the next accesses come later
than they may, and everything else. -/
structure Board (width depth : ℕ) (κ μ ρ : Type*) where
  register : Register width depth κ μ
  late : ℕ → ℕ
  rest : ρ

variable {width depth : ℕ} {κ μ ρ : Type*}
variable (csr : CsrStorage (width + 1) κ) (port : MemoryPort width depth μ) (readonly : Bool)

namespace Board

def tick (bus : Option Word) (d : Board width depth κ μ ρ) : Board width depth κ μ ρ where
  register := settle csr port readonly bus (5 + d.late 0) d.register
  late := fun k => d.late (k + 1)
  rest := d.rest

end Board

/-- The register at its address, in front of all other addresses. -/
def mount (address : Word) (rest : Bus ρ) : Bus (Board width depth κ μ ρ) where
  load a d :=
    if a = address then ((csr.storage d.register.csr).setWidth 32, d.tick csr port readonly none)
    else
      let found := rest.load a d.rest
      (found.1, { d.tick csr port readonly none with rest := found.2 })
  store a value d :=
    if a = address then d.tick csr port readonly (some value)
    else { d.tick csr port readonly none with rest := rest.store a value d.rest }
  fetch offset d := (rest.fetch offset d.rest).map fun found => (found.1, { d with rest := found.2 })
  handed d := rest.handed d.rest
  mapped offset d inside := by
    rw [Option.isSome_map]
    exact rest.mapped offset d.rest inside

variable {csr port readonly} {address : Word} {rest : Bus ρ}

theorem load_mount (d : Board width depth κ μ ρ) :
    (mount csr port readonly address rest).load address d =
      ((csr.storage d.register.csr).setWidth 32, d.tick csr port readonly none) := if_pos rfl

theorem store_mount (value : Word) (d : Board width depth κ μ ρ) :
    (mount csr port readonly address rest).store address value d = d.tick csr port readonly (some value) := if_pos rfl

variable (address rest) in
theorem read_loop {n : ℕ} (within : n ≤ depth) (short : n ≤ 2 ^ 31) {mem : ℕ → BitVec width}
    (buffer : ℕ → Word) (d : Board width depth κ μ ρ)
    (holds : Holds csr port readonly d.register mem) :
    Holds csr port readonly
        ((List.range n).foldl (readEntry (mount csr port readonly address rest) address)
          (buffer, d)).2.register mem ∧
      ∀ i < n, ((List.range n).foldl (readEntry (mount csr port readonly address rest) address)
        (buffer, d)).1 i = (mem (i % 2 ^ width)).setWidth 32 := by
  induction n with
  | zero => exact ⟨holds, fun i below => absurd below (Nat.not_lt_zero i)⟩
  | succ n ih =>
    obtain ⟨before, read⟩ := ih (by omega) (by omega)
    rw [List.range_succ, List.foldl_append, List.foldl_cons, List.foldl_nil]
    simp only [readEntry, store_mount, load_mount]
    generalize (List.range n).foldl (readEntry (mount csr port readonly address rest) address)
      (buffer, d) = state at before read ⊢
    have four : 5 + state.2.late 0 = 4 + (1 + state.2.late 0) := by omega
    have selected : Represents csr port true
        (state.2.tick csr port readonly (some (indexWord n))).register ⟨mem, n % 2 ^ width⟩ := by
      have refined := index_refines (by omega)
        (lt_of_le_of_lt (Nat.mod_le n (2 ^ width)) (Nat.lt_of_succ_le within)) before
        (1 + state.2.late 0)
      rw [← four] at refined
      exact refined
    refine ⟨.inl ⟨true, n % 2 ^ width, idle_refines selected _⟩, ?_⟩
    intro i below
    by_cases last : i = n
    · rw [last, Function.update_self, read_refines selected]
      rfl
    · rw [Function.update_of_ne last]
      exact read i (by omega)

section Write

variable (narrow : width ≤ 31) (indices : depth ≤ 2 ^ width)
include narrow indices

private theorem stored_entry {i : ℕ} (inside : i < depth) (v : Word) (d : Board width depth κ μ ρ) :
    ∃ mem, Represents csr port false
        ((d.tick csr port false (some (indexWord i))).tick csr port false (some (v <<< 1))).register
        ⟨Function.update mem i (v.setWidth width), i⟩ ∧
      ∀ before, Holds csr port false d.register before → mem = before := by
  have power : 2 ^ width ≤ 2 ^ 31 := Nat.pow_le_pow_right (by decide) narrow
  have same : i % 2 ^ width = i := Nat.mod_eq_of_lt (by omega)
  have four : 5 + d.late 0 = 4 + (1 + d.late 0) := by omega
  have two : 5 + d.late 1 = 2 + (3 + d.late 1) := by omega
  have selected := represents_index port false csr (i := i)
    (by omega) (by omega) d.register (1 + d.late 0)
  refine ⟨port.mem (edge csr port false none none
    (edge csr port false (some (indexWord i)) none d.register)).memory, ?_, ?_⟩
  · have stored := value_refines narrow v selected (by dsimp only; omega) (3 + d.late 1)
    rw [← four, ← two, same] at stored
    exact stored
  · intro before holds
    have refined := index_refines (i := i) (by omega) (by omega) holds (1 + d.late 0)
    exact selected.mem.symm.trans refined.mem

variable (address rest) in
/-- The write loop stores its words in the first entries, from any state of the register, and
leaves the other entries of a register that is represented. -/
theorem write_loop (values : ℕ → Word) {n : ℕ} (within : n ≤ depth) (positive : 0 < n)
    (d : Board width depth κ μ ρ) :
    ∃ mem, Represents csr port false
        ((List.range n).foldl
          (writeEntry (mount csr port false address rest) address values) d).register
        ⟨mem, n - 1⟩ ∧
      (∀ i < n, mem i = (values i).setWidth width) ∧
      ∀ before, Holds csr port false d.register before → ∀ i, n ≤ i → mem i = before i := by
  induction n with
  | zero => exact absurd positive (Nat.lt_irrefl 0)
  | succ n ih =>
    rw [List.range_succ, List.foldl_append, List.foldl_cons, List.foldl_nil]
    simp only [writeEntry, store_mount]
    obtain ⟨mem, represents, kept⟩ := stored_entry narrow indices
      (Nat.lt_of_succ_le within) (values n)
      ((List.range n).foldl (writeEntry (mount csr port false address rest) address values) d)
    by_cases first : n = 0
    · subst first
      refine ⟨_, represents, ?_, ?_⟩
      · intro i below
        obtain rfl : i = 0 := by omega
        exact Function.update_self 0 _ mem
      · intro before holds i above
        rw [Function.update_of_ne (by omega), kept before holds]
    · obtain ⟨earlier, last, stored, frame⟩ := ih (by omega) (by omega)
      have same := kept _ (.inl ⟨_, _, last⟩)
      refine ⟨_, represents, ?_, ?_⟩
      · intro i below
        by_cases here : i = n
        · rw [here, Function.update_self]
        · rw [Function.update_of_ne here, same]
          exact stored i (by omega)
      · intro before holds i above
        rw [Function.update_of_ne (by omega), same]
        exact frame before holds i (by omega)

end Write

end Pypga.Core.MountedRegister
