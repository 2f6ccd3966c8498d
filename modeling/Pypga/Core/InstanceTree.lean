/- GID: Pypga/Core/InstanceTree
   generality: G
   digest: Calling a module class creates its whole tree before any constructor goes on, with the names of the registers. -/

import Mathlib.Data.List.Basic
import Pypga.Core.Instances

set_option autoImplicit false
set_option relaxedAutoImplicit false

namespace Pypga.Core.InstanceTree

open Pypga.Core.RegisterNames (Instance get_parents_sub get_parents_injective)
open Pypga.Core.Instances

variable {α ι : Type}

def count : ModuleClass α ι → ℕ
  | .done _ _ => 0
  | .register _ others => count others
  | .submodule _ cls others => count cls + 1 + count others

/-- The instances below one of this class, in the order in which they are created. -/
def below : ModuleClass α ι → Instance → List (Instance × ModuleClass α ι)
  | .done _ _, _ => []
  | .register _ others, i => below others i
  | .submodule name cls others, i => (.sub name i, cls) :: below cls (.sub name i) ++ below others i

def modules (c : ModuleClass α ι) (i : Instance) : List (Instance × ModuleClass α ι) := (i, c) :: below c i

/-- The attributes of an instance whose first submodule is created at `r`. -/
def attributes : ModuleClass α ι → ℕ → List (String × ℕ)
  | .done _ _, _ => []
  | .register _ others, r => attributes others r
  | .submodule name cls others, r => (name, r) :: attributes others (r + (count cls + 1))

/-- What the constructor of an instance does, when the instance is complete. -/
def events (interface : Option ι) (c : ModuleClass α ι) (i : Instance) : List (Event α ι) :=
  (plain c.constructors).map fun a => ⟨some i.getParents, some interface, c.submoduleNames, a⟩

def saidBelow (interface : Option ι) : ModuleClass α ι → Instance → List (Event α ι)
  | .done _ _, _ => []
  | .register _ others, i => saidBelow interface others i
  | .submodule name cls others, i =>
    saidBelow interface cls (.sub name i) ++ events interface cls (.sub name i) ++
      saidBelow interface others i

/-- The submodules are done before the constructor of the module goes on. -/
def said (interface : Option ι) (c : ModuleClass α ι) (i : Instance) : List (Event α ι) :=
  saidBelow interface c i ++ events interface c i

def submoduleClass : ModuleClass α ι → String → Option (ModuleClass α ι)
  | .done _ _, _ => none
  | .register _ others, x => submoduleClass others x
  | .submodule name cls others, x => if x = name then some cls else submoduleClass others x

/-- The class of the submodule of a submodule, and so on. -/
def descend : ModuleClass α ι → List String → Option (ModuleClass α ι)
  | c, [] => some c
  | c, name :: path => (submoduleClass c name).bind fun cls => descend cls path

private theorem length_below (c : ModuleClass α ι) (i : Instance) :
    (below c i).length = count c := by
  induction c generalizing i with
  | done own bases => rfl
  | register name others ih => exact ih i
  | submodule name cls others inside after =>
    rw [below, List.length_append, List.length_cons, inside, after, count]

private theorem attributes_names (c : ModuleClass α ι) (r : ℕ) :
    (attributes c r).map Prod.fst = c.submoduleNames := by
  induction c generalizing r with
  | done own bases => rfl
  | register name others ih => exact ih r
  | submodule name cls others _ after => exact congrArg (name :: ·) (after _)

section Objects

/-- An object is complete as the instance `m.1` of the class `m.2`; its submodules follow it. -/
structure Completed (heap : Heap ι) (interface : Option ι) (r : ℕ)
    (m : Instance × ModuleClass α ι) : Prop where
  denotes : Denotes heap r m.1
  interface : (heap r).interface = some interface
  registers : (heap r).registers = m.2.registers
  submodules : (heap r).submodules = attributes m.2 (r + 1)

/-- The objects from `r` on are these instances. -/
def Held (heap : Heap ι) (interface : Option ι) : ℕ → List (Instance × ModuleClass α ι) → Prop
  | _, [] => True
  | r, m :: ms => Completed heap interface r m ∧ Held heap interface (r + 1) ms

variable {heap heap' : Heap ι} {interface : Option ι} {r : ℕ}

private theorem held_append {ms ms' : List (Instance × ModuleClass α ι)} :
    Held heap interface r (ms ++ ms') ↔
      Held heap interface r ms ∧ Held heap interface (r + ms.length) ms' := by
  induction ms generalizing r with
  | nil => simp [Held]
  | cons m ms ih =>
    rw [List.cons_append, Held, Held, ih, List.length_cons, and_assoc, Nat.add_right_comm, Nat.add_assoc]

private theorem Held.object {ms : List (Instance × ModuleClass α ι)}
    (held : Held heap interface r ms)
    {m : Instance × ModuleClass α ι} : m ∈ ms → ∃ k < ms.length, Completed heap interface (r + k) m := by
  induction ms generalizing r with
  | nil => exact fun member => absurd member List.not_mem_nil
  | cons first ms ih =>
    intro member
    rcases List.mem_cons.mp member with rfl | later
    · exact ⟨0, Nat.succ_pos _, held.1⟩
    · obtain ⟨k, inside, completed⟩ := ih held.2 later
      refine ⟨k + 1, Nat.succ_lt_succ inside, ?_⟩
      rw [← Nat.add_assoc, Nat.add_right_comm]
      exact completed

private theorem Held.listed {ms : List (Instance × ModuleClass α ι)}
    (held : Held heap interface r ms)
    {k : ℕ} (inside : k < ms.length) : ∃ m ∈ ms, Completed heap interface (r + k) m := by
  induction ms generalizing r k with
  | nil => exact absurd inside (Nat.not_lt_zero k)
  | cons first ms ih =>
    cases k with
    | zero => exact ⟨first, List.mem_cons_self, held.1⟩
    | succ k =>
      obtain ⟨m, member, completed⟩ := ih held.2 (Nat.lt_of_succ_lt_succ inside)
      refine ⟨m, List.mem_cons_of_mem first member, ?_⟩
      rw [← Nat.add_assoc, Nat.add_right_comm]
      exact completed

/-- Complete objects that are left alone stay complete, whatever attributes the older ones get. -/
private theorem Held.kept {ms : List (Instance × ModuleClass α ι)}
    (held : Held heap interface r ms) {n : ℕ}
    (inside : r + ms.length ≤ n)
    (same : ∀ q < n, (heap' q).name = (heap q).name ∧ (heap' q).parent = (heap q).parent)
    (alone : ∀ q < n, r ≤ q → heap' q = heap q) : Held heap' interface r ms := by
  induction ms generalizing r with
  | nil => trivial
  | cons m ms ih =>
    rw [List.length_cons] at inside
    have own := alone r (by omega) (Nat.le_refl r)
    refine ⟨⟨held.1.denotes.kept (by omega) same, ?_, ?_, ?_⟩, ?_⟩
    · rw [own, held.1.interface]
    · rw [own, held.1.registers]
    · rw [own, held.1.submodules]
    · exact ih held.2 (by omega) fun q before after => alone q before (by omega)

end Objects

section Creation

/-- What the loop over the submodules does from a state on. -/
structure Populated (c : ModuleClass α ι) (owner : ℕ) (i : Instance) (interface : Option ι)
    (s t : State α ι) : Prop where
  next : t.next = s.next + count c
  own : t.heap owner = { s.heap owner with
    submodules := (s.heap owner).submodules ++ attributes c s.next }
  older : ∀ r < s.next, r ≠ owner → t.heap r = s.heap r
  held : Held t.heap interface s.next (below c i)
  log : t.log = s.log ++ saidBelow interface c i

/-- What calling a class does from a state on. -/
structure Created (c : ModuleClass α ι) (i : Instance) (interface : Option ι) (s t : State α ι) :
    Prop where
  next : t.next = s.next + (count c + 1)
  older : ∀ r < s.next, t.heap r = s.heap r
  held : Held t.heap interface s.next (modules c i)
  log : t.log = s.log ++ said interface c i

/-- The new object when its submodules are about to be created. -/
def started (c : ModuleClass α ι) (given : Arguments ι) (s : State α ι) : State α ι :=
  (s.allocate c.registers).setOwn s.next given

variable {c : ModuleClass α ι} {self : ℕ} {i : Instance} {interface : Option ι} {given : Arguments ι}
variable {s t : State α ι}

private theorem started_own : (started c given s).heap s.next =
    ⟨some given.name, some given.parent, some given.interface, [], c.registers⟩ := by
  simp [started, State.setOwn, State.allocate]

private theorem started_older {r : ℕ} (older : r < s.next) :
    (started c given s).heap r = s.heap r := by
  have other : r ≠ s.next := Nat.ne_of_lt older
  simp [started, State.setOwn, State.allocate, Function.update_of_ne other]

private theorem Populated.same (populated : Populated c self i interface s t) (r : ℕ)
    (inside : r < s.next) : (t.heap r).name = (s.heap r).name ∧ (t.heap r).parent = (s.heap r).parent := by
  by_cases here : r = self
  · subst here
    rw [populated.own]
    exact ⟨rfl, rfl⟩
  · rw [populated.older r inside here]
    exact ⟨rfl, rfl⟩

/-- The constructors run on an instance that has all of its submodules. -/
private theorem create_eq
    (populated : Populated c s.next i given.interface (started c given s)
      (createSubmodules c s.next given.interface (started c given s))) :
    create c given s = (createSubmodules c s.next given.interface (started c given s)).sayAll s.next
      (plain c.constructors) := by
  refine new_init_first c.constructors_ne_nil given ?_ ?_
  · simp [State.initialised, State.allocate]
  · show State.initialised (createSubmodules c s.next given.interface (started c given s)) s.next = true
    rw [State.initialised, populated.own, started_own]
    rfl

private theorem created (denotes : Denotes (started c given s).heap s.next i)
    (populated : Populated c s.next i given.interface (started c given s)
      (createSubmodules c s.next given.interface (started c given s))) :
    Created c i given.interface s (create c given s) := by
  have own := populated.own
  rw [started_own, List.nil_append] at own
  have parents := denotes.kept (Nat.lt_succ_self s.next) populated.same
  rw [create_eq populated, say_all_eq]
  refine ⟨?_, ?_, ⟨⟨parents, ?_, ?_, ?_⟩, populated.held⟩, ?_⟩
  · show State.next _ = _
    rw [populated.next, Nat.add_comm (count c), ← Nat.add_assoc]
    rfl
  · intro r older
    exact (populated.older r (Nat.lt_succ_of_lt older) (Nat.ne_of_lt older)).trans (started_older older)
  · rw [own]
  · rw [own]
  · rw [own]
    rfl
  · show State.log _ ++ _ = _
    rw [populated.log, get_parents_of_denotes parents, own, said, List.append_assoc]
    simp only [events, attributes_names]
    rfl

section Linked

variable {name : String} {cls others : ModuleClass α ι} (inside : self < s.next)
  (made : Created cls (.sub name i) interface s t)
include inside made

private theorem linked_own : (t.setSubmodule self name s.next).heap self =
    { s.heap self with submodules := (s.heap self).submodules ++ [(name, s.next)] } := by
  show Function.update _ self _ self = _
  rw [Function.update_self, made.older self inside]

omit inside made in
private theorem linked_elsewhere {r : ℕ} (other : r ≠ self) :
    (t.setSubmodule self name s.next).heap r = t.heap r := Function.update_of_ne other _ _

private theorem linked_same (r : ℕ) :
    ((t.setSubmodule self name s.next).heap r).name = (t.heap r).name ∧
      ((t.setSubmodule self name s.next).heap r).parent = (t.heap r).parent := by
  by_cases here : r = self
  · subst here
    rw [linked_own inside made, made.older r inside]
    exact ⟨rfl, rfl⟩
  · rw [linked_elsewhere here]
    exact ⟨rfl, rfl⟩

/-- A submodule and its attribute, and then the rest of the loop. -/
private theorem populated_submodule {u : State α ι}
    (rest : Populated others self i interface (t.setSubmodule self name s.next) u) :
    Populated (.submodule name cls others) self i interface s u := by
  have next : (t.setSubmodule self name s.next).next = s.next + (count cls + 1) := made.next
  have length : (modules cls (.sub name i)).length = count cls + 1 := by
    rw [modules, List.length_cons, length_below]
  refine ⟨?_, ?_, ?_, held_append.mpr ⟨made.held.kept (n := t.next) ?_ ?_ ?_, ?_⟩, ?_⟩
  · rw [count, ← Nat.add_assoc, ← next]
    exact rest.next
  · rw [rest.own, linked_own inside made, next, attributes]
    simp
  · intro r older other
    have before : r < t.next := by
      rw [made.next]
      omega
    exact (rest.older r before other).trans ((linked_elsewhere other).trans (made.older r older))
  · exact Nat.le_of_eq ((congrArg (s.next + ·) length).trans made.next.symm)
  · intro r older
    have kept := rest.same r older
    have same := linked_same inside made r
    exact ⟨kept.1.trans same.1, kept.2.trans same.2⟩
  · intro r older newer
    have other : r ≠ self := by omega
    exact (rest.older r older other).trans (linked_elsewhere other)
  · show Held u.heap interface (s.next + (modules cls (.sub name i)).length) (below others i)
    rw [length, ← next]
    exact rest.held
  · rw [rest.log]
    show t.log ++ _ = _
    rw [made.log, said, saidBelow, List.append_assoc]

end Linked

/-- The statement for the class of a submodule is used for the instance that it creates, the one for
the annotations that follow for the submodules after it. -/
private theorem populated (c : ModuleClass α ι) (self : ℕ) (i : Instance) (interface : Option ι)
    (s : State α ι) (inside : self < s.next) (denotes : Denotes s.heap self i) :
    Populated c self i interface s (createSubmodules c self interface s) := by
  induction c generalizing self i interface s with
  | done own bases =>
    refine ⟨rfl, ?_, fun _ _ _ => rfl, trivial, ?_⟩
    · rw [attributes, List.append_nil]
      rfl
    · rw [saidBelow, List.append_nil]
      rfl
  | register name others ih =>
    obtain ⟨next, own, older, held, log⟩ := ih self i interface s inside denotes
    exact ⟨next, own, older, held, log⟩
  | submodule name cls others within after =>
    have named : Denotes (started cls ⟨name, some self, interface⟩ s).heap s.next (.sub name i) := by
      refine .sub (q := self) ?_ ?_ inside (denotes.kept inside fun r older => ?_)
      · rw [started_own]
      · rw [started_own]
      · rw [started_older older]
        exact ⟨rfl, rfl⟩
    have made : Created cls (.sub name i) interface s (create cls ⟨name, some self, interface⟩ s) :=
      created named (within _ _ _ _ (Nat.lt_succ_self s.next) named)
    have above : Denotes ((create cls ⟨name, some self, interface⟩ s).setSubmodule self name s.next).heap
        self i := by
      refine denotes.kept inside fun r older => ?_
      rw [(linked_same inside made r).1, (linked_same inside made r).2, made.older r older]
      exact ⟨rfl, rfl⟩
    have newer : self < ((create cls ⟨name, some self, interface⟩ s).setSubmodule self name s.next).next := by
      show self < (create cls _ s).next
      rw [made.next]
      omega
    exact populated_submodule inside made (after self i interface _ newer above)

private theorem create_created (c : ModuleClass α ι) (name : String) (interface : Option ι) :
    Created c (.top name) interface {} (create c ⟨name, none, interface⟩ {}) := by
  have named : Denotes (started c ⟨name, none, interface⟩ {}).heap 0 (.top name) := by
    refine .top ?_ ?_
    · rw [show (0 : ℕ) = ({} : State α ι).next from rfl, started_own]
    · rw [show (0 : ℕ) = ({} : State α ι).next from rfl, started_own]
  exact created named (populated c 0 (.top name) interface _ Nat.one_pos named)

end Creation

section Paths

variable {heap : Heap ι} {interface : Option ι}

private theorem held_attribute {c : ModuleClass α ι} {r : ℕ} {i : Instance}
    (held : Held heap interface r (below c i)) (name : String) :
    (submoduleClass c name = none → (attributes c r).lookup name = none) ∧
      ∀ cls, submoduleClass c name = some cls →
        ∃ q, (attributes c r).lookup name = some q ∧ Held heap interface q (modules cls (.sub name i)) := by
  induction c generalizing r with
  | done own bases => exact ⟨fun _ => rfl, fun cls found => absurd found.symm (Option.some_ne_none cls)⟩
  | register other others ih => exact ih held
  | submodule other inside others _ after =>
    obtain ⟨first, rest⟩ := held_append.mp held
    rw [List.length_cons, length_below] at rest
    rw [submoduleClass, attributes, List.lookup_cons]
    by_cases here : name = other
    · subst here
      rw [if_pos rfl, beq_self_eq_true]
      refine ⟨fun missing => absurd missing (Option.some_ne_none _), fun cls found => ⟨r, rfl, ?_⟩⟩
      rw [← Option.some.inj found]
      exact first
    · rw [if_neg here, beq_false_of_ne here]
      exact after rest

private theorem follow_descend (path : List String) {c : ModuleClass α ι} {r : ℕ} {i : Instance}
    (held : Held heap interface r (modules c i)) :
    (descend c path = none → follow heap r path = none) ∧
      ∀ cls, descend c path = some cls → ∃ q j, follow heap r path = some q ∧
        j.getParents = i.getParents ++ path ∧ Held heap interface q (modules cls j) := by
  induction path generalizing c r i with
  | nil =>
    refine ⟨fun missing => absurd missing (Option.some_ne_none _), fun cls found => ⟨r, i, rfl, ?_, ?_⟩⟩
    · rw [List.append_nil]
    · rw [← Option.some.inj found]
      exact held
  | cons name path ih =>
    obtain ⟨missing, found⟩ := held_attribute held.2 name
    rw [descend, follow, held.1.submodules]
    cases submodule : submoduleClass c name with
    | none =>
      rw [missing submodule]
      exact ⟨fun _ => rfl, fun cls found => absurd found.symm (Option.some_ne_none cls)⟩
    | some inside =>
      obtain ⟨q, there, below⟩ := found inside submodule
      rw [there]
      obtain ⟨nothing, object⟩ := ih below
      refine ⟨nothing, fun cls target => ?_⟩
      obtain ⟨q', j, reached, parents, complete⟩ := object cls target
      refine ⟨q', j, reached, ?_, complete⟩
      rw [parents, get_parents_sub, List.append_assoc]
      rfl

private theorem mem_registers_below {c : ModuleClass α ι} {i : Instance}
    {q : RegisterNames.Register} :
    q ∈ RegisterNames.registers c.tree i ↔ q.owner = i ∧ q.name ∈ c.registers ∨
      ∃ m ∈ below c i, q.owner = m.1 ∧ q.name ∈ m.2.registers := by
  induction c generalizing i with
  | done own bases => simp [ModuleClass.tree, RegisterNames.registers, ModuleClass.registers, below]
  | register name others ih =>
    obtain ⟨owner, here⟩ := q
    rw [ModuleClass.tree, RegisterNames.registers, List.mem_cons, ih, RegisterNames.Register.mk.injEq,
      ModuleClass.registers, List.mem_cons, below, and_or_left, or_assoc]
  | submodule name cls others within after =>
    rw [ModuleClass.tree, RegisterNames.registers, List.mem_append, within, after, below,
      ModuleClass.registers]
    simp only [List.mem_append, List.mem_cons, or_and_right, exists_or, exists_eq_left]
    rw [or_left_comm]

private theorem mem_registers {c : ModuleClass α ι} {i : Instance} {q : RegisterNames.Register} :
    q ∈ RegisterNames.registers c.tree i ↔
      ∃ m ∈ modules c i, q.owner = m.1 ∧ q.name ∈ m.2.registers := by
  rw [mem_registers_below, modules, List.exists_mem_cons_iff]

end Paths

/-- A module class that is called without a parent, as `TopModule.run` calls it. -/
def callTop (c : ModuleClass α ι) (name : String) (interface : Option ι) : State α ι :=
  create c ⟨name, none, interface⟩ {}

/-- The base class gives other arguments on, and a class without a constructor has its base's. -/
def panel : ModuleClass String Unit :=
  .submodule "led" (.register "on" (.done none [some [.other "dim"]]))
    (.done (some [.superInit ⟨"other", none, none⟩, .other "ready"]) [some [.other "base"]])

example : (callTop panel "top" (some ())).log =
    [⟨some ["top", "led"], some (some ()), [], "dim"⟩, ⟨some ["top"], some (some ()), ["led"], "base"⟩,
      ⟨some ["top"], some (some ()), ["led"], "ready"⟩] := by decide

end Pypga.Core.InstanceTree
