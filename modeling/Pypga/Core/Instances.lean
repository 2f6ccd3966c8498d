/- GID: Pypga/Core/Instances
   generality: G
   digest: How calling a module class builds its instance and those of its submodules, whatever the constructors. -/

import Mathlib.Logic.Function.Basic
import Pypga.Core.RegisterNames

set_option autoImplicit false
set_option relaxedAutoImplicit false

namespace Pypga.Core.Instances

open Pypga.Core.RegisterNames (Instance)

variable {α ι : Type}

/-- The keyword arguments that `new_init` takes for itself. -/
structure Arguments (ι : Type) where
  name : String := "top"
  parent : Option ℕ := none
  interface : Option ι := none

/-- A statement of a constructor: it calls the one of the base class, or does anything else that
leaves the hierarchy alone. -/
inductive Statement (α ι : Type)
  | superInit (given : Arguments ι)
  | other (a : α)

/-- The `__init__` of a class body, if it has one. -/
abbrev Constructor (α ι : Type) := Option (List (Statement α ι))

/-- A module class: its registers and submodules, then its constructor and those of its bases, the
nearest one first. -/
inductive ModuleClass (α ι : Type)
  | done (own : Constructor α ι) (bases : List (Constructor α ι))
  | register (name : String) (others : ModuleClass α ι)
  | submodule (name : String) (cls others : ModuleClass α ι)

namespace ModuleClass

def constructors : ModuleClass α ι → List (Constructor α ι)
  | done own bases => own :: bases
  | register _ others => others.constructors
  | submodule _ _ others => others.constructors

def registers : ModuleClass α ι → List String
  | done _ _ => []
  | register name others => name :: others.registers
  | submodule _ _ others => others.registers

def submoduleNames : ModuleClass α ι → List String
  | done _ _ => []
  | register _ others => others.submoduleNames
  | submodule name _ others => name :: others.submoduleNames

def tree : ModuleClass α ι → RegisterNames.ModuleClass
  | done _ _ => .empty
  | register name others => .leaf name others.tree
  | submodule name cls others => .branch name cls.tree others.tree

theorem constructors_ne_nil (c : ModuleClass α ι) : c.constructors ≠ [] := by
  induction c with
  | done own bases => exact List.cons_ne_nil own bases
  | register name others ih => exact ih
  | submodule name cls others _ ih => exact ih

end ModuleClass

/-- An instance: the attributes that `_init_module` sets, and the registers of its class. Instances are
numbered in the order in which they are created. -/
structure Object (ι : Type) where
  name : Option String := none
  parent : Option (Option ℕ) := none
  interface : Option (Option ι) := none
  submodules : List (String × ℕ) := []
  registers : List String := []

abbrev Heap (ι : Type) := ℕ → Object ι

/-- The loop of `_get_parents` from a parent on. A missing attribute raises an error. -/
def insertParents (heap : Heap ι) : ℕ → Option ℕ → List String → Option (List String)
  | _, none, parents => some parents
  | 0, some _, _ => none
  | fuel + 1, some q, parents => do
    let name ← (heap q).name
    let parent ← (heap q).parent
    insertParents heap fuel parent (name :: parents)

/-- An object is newer than its parents, so its reference bounds their number. -/
def getParents (heap : Heap ι) (r : ℕ) : Option (List String) := do
  let name ← (heap r).name
  let parent ← (heap r).parent
  insertParents heap r parent [name]

/-- A statement of a constructor, with what it finds of its instance. -/
structure Event (α ι : Type) where
  parents : Option (List String)
  interface : Option (Option ι)
  submodules : List String
  statement : α
  deriving DecidableEq

/-- The objects so far, and what their constructors have done. -/
structure State (α ι : Type) where
  next : ℕ := 0
  heap : Heap ι := fun _ => {}
  log : List (Event α ι) := []

namespace State

variable (s : State α ι) (self : ℕ)

/-- `hasattr` of the two attributes. -/
def initialised : Bool := (s.heap self).parent.isSome && (s.heap self).interface.isSome

def allocate (registers : List String) : State α ι :=
  { s with next := s.next + 1, heap := Function.update s.heap s.next { registers := registers } }

/-- The first statements of `_init_module`. -/
def setOwn (given : Arguments ι) : State α ι :=
  { s with
    heap := Function.update s.heap self
      { s.heap self with name := some given.name, parent := some given.parent, interface := some given.interface } }

def setSubmodule (name : String) (sub : ℕ) : State α ι :=
  { s with
    heap := Function.update s.heap self
      { s.heap self with submodules := (s.heap self).submodules ++ [(name, sub)] } }

def say (a : α) : State α ι :=
  { s with
    log := s.log ++ [⟨getParents s.heap self, (s.heap self).interface,
      (s.heap self).submodules.map Prod.fst, a⟩] }

end State

/-- `new_init` of a class, above the wrapped constructors of its bases. A body without a constructor
leads to the one of the next base; it gets none of the three arguments. -/
def newInit (init : Arguments ι → State α ι → State α ι) (self : ℕ) :
    List (Constructor α ι) → Arguments ι → State α ι → State α ι
  | [], _, s => s
  | own :: bases, given, s =>
    let s := if s.initialised self then s else init given s
    match own with
    | none => newInit init self bases {} s
    | some body => body.foldl (fun s statement =>
        match statement with
        | .superInit given => newInit init self bases given s
        | .other a => s.say self a) s

/-- The loop of `_init_module`: the class of each submodule is called, and its instance becomes an
attribute. -/
def createSubmodules : ModuleClass α ι → ℕ → Option ι → State α ι → State α ι
  | .done _ _, _, _, s => s
  | .register _ others, self, interface, s => createSubmodules others self interface s
  | .submodule name cls others, self, interface, s =>
    let sub := s.next
    let s := newInit (fun given s => createSubmodules cls sub given.interface (s.setOwn sub given)) sub
      cls.constructors ⟨name, some self, interface⟩ (s.allocate cls.registers)
    createSubmodules others self interface (s.setSubmodule self name sub)

/-- `_init_module` of an instance that has not been initialised. -/
def initModule (c : ModuleClass α ι) (self : ℕ) (given : Arguments ι) (s : State α ι) : State α ι :=
  createSubmodules c self given.interface (s.setOwn self given)

/-- Calling a class: the new object is the one at `s.next`. -/
def create (c : ModuleClass α ι) (given : Arguments ι) (s : State α ι) : State α ι :=
  newInit (initModule c s.next) s.next c.constructors given (s.allocate c.registers)

/-- The attribute of an attribute, and so on. -/
def follow (heap : Heap ι) : ℕ → List String → Option ℕ
  | r, [] => some r
  | r, name :: path => ((heap r).submodules.lookup name).bind fun sub => follow heap sub path

section Parents

/-- An object is the instance with this name and these parents. -/
inductive Denotes (heap : Heap ι) : ℕ → Instance → Prop
  | top {r : ℕ} {name : String} (named : (heap r).name = some name)
      (parent : (heap r).parent = some none) : Denotes heap r (.top name)
  | sub {r q : ℕ} {name : String} {i : Instance} (named : (heap r).name = some name)
      (parent : (heap r).parent = some (some q)) (older : q < r) (above : Denotes heap q i) :
      Denotes heap r (.sub name i)

variable {heap heap' : Heap ι} {r : ℕ} {i : Instance}

private theorem insert_parents_none (fuel : ℕ) (parents : List String) :
    insertParents heap fuel none parents = some parents := by
  cases fuel <;> rfl

private theorem insert_parents_of_denotes (denotes : Denotes heap r i) {fuel : ℕ}
    (enough : r < fuel)
    (parents : List String) :
    insertParents heap fuel (some r) parents = some (i.insertParents parents) := by
  induction denotes generalizing fuel parents with
  | top named parent =>
    cases fuel with
    | zero => exact absurd enough (Nat.not_lt_zero _)
    | succ fuel =>
      rw [insertParents, named, parent]
      exact insert_parents_none fuel _
  | sub named parent older above ih =>
    cases fuel with
    | zero => exact absurd enough (Nat.not_lt_zero _)
    | succ fuel =>
      have nearer := Nat.lt_of_lt_of_le older (Nat.lt_succ_iff.mp enough)
      rw [insertParents, named, parent]
      exact ih nearer _

theorem get_parents_of_denotes (denotes : Denotes heap r i) :
    getParents heap r = some i.getParents := by
  cases denotes with
  | top named parent =>
    rw [getParents, named, parent]
    exact insert_parents_none _ _
  | sub named parent older above =>
    rw [getParents, named, parent]
    exact insert_parents_of_denotes above older _

/-- The names and the parents of the older objects are all that counts. -/
theorem Denotes.kept {n : ℕ} (denotes : Denotes heap r i) (inside : r < n)
    (same : ∀ q < n, (heap' q).name = (heap q).name ∧ (heap' q).parent = (heap q).parent) :
    Denotes heap' r i := by
  induction denotes with
  | top named parent =>
    exact .top ((same _ inside).1.trans named) ((same _ inside).2.trans parent)
  | sub named parent older above ih =>
    exact .sub ((same _ inside).1.trans named) ((same _ inside).2.trans parent) older
      (ih (Nat.lt_trans older inside))

end Parents

section Chain

/-- The constructors as Python alone would run them. -/
def plain : List (Constructor α ι) → List α
  | [] => []
  | none :: bases => plain bases
  | some body :: bases => body.flatMap fun
    | .superInit _ => plain bases
    | .other a => [a]

variable {init : Arguments ι → State α ι → State α ι} {self : ℕ} {s : State α ι}

def State.sayAll (s : State α ι) (self : ℕ) (as : List α) : State α ι :=
  as.foldl (fun s a => s.say self a) s

private theorem say_all_append (s : State α ι) (self : ℕ) (as bs : List α) :
    s.sayAll self (as ++ bs) = (s.sayAll self as).sayAll self bs := List.foldl_append

theorem say_all_eq (s : State α ι) (self : ℕ) (as : List α) :
    s.sayAll self as = { s with
      log := s.log ++ as.map fun a => ⟨getParents s.heap self, (s.heap self).interface,
        (s.heap self).submodules.map Prod.fst, a⟩ } := by
  induction as generalizing s with
  | nil => simp [State.sayAll]
  | cons a as ih =>
    have first : s.sayAll self (a :: as) = (s.say self a).sayAll self as := rfl
    rw [first, ih]
    simp [State.say]

private theorem initialised_said (initialised : s.initialised self = true) (as : List α) :
    (s.sayAll self as).initialised self = true := by
  rw [State.initialised, say_all_eq]
  exact initialised

/-- On an initialised instance the wrapped constructors do what the plain ones do. -/
private theorem new_init_later (chain : List (Constructor α ι)) (given : Arguments ι)
    (initialised : s.initialised self = true) :
    newInit init self chain given s = s.sayAll self (plain chain) := by
  induction chain generalizing given s with
  | nil => rfl
  | cons own bases ih =>
    cases own with
    | none =>
      rw [newInit, if_pos initialised]
      exact ih {} initialised
    | some body =>
      rw [newInit, if_pos initialised, plain]
      induction body generalizing s with
      | nil => rfl
      | cons statement body later =>
        rw [List.flatMap_cons, say_all_append, List.foldl_cons]
        cases statement with
        | superInit given =>
          dsimp only
          rw [ih given initialised]
          exact later (initialised_said initialised _)
        | other a => exact later (initialised_said initialised [a])

/-- The outermost constructor initialises the instance, before any statement. -/
theorem new_init_first {chain : List (Constructor α ι)} (some : chain ≠ []) (given : Arguments ι)
    (fresh : s.initialised self = false) (initialised : (init given s).initialised self = true) :
    newInit init self chain given s = (init given s).sayAll self (plain chain) := by
  obtain ⟨own, bases, rfl⟩ := List.exists_cons_of_ne_nil some
  have skipped : newInit init self (own :: bases) given (init given s) =
      (init given s).sayAll self (plain (own :: bases)) := new_init_later (own :: bases) given initialised
  rw [← skipped]
  cases own with
  | none => rw [newInit, newInit, if_pos initialised, if_neg (Bool.eq_false_iff.mp fresh)]
  | some body => rw [newInit, newInit, if_pos initialised, if_neg (Bool.eq_false_iff.mp fresh)]

end Chain

end Pypga.Core.Instances
