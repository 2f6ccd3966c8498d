/- GID: Pypga/Core/ModuleClasses
   generality: G
   digest: What creating a module class does with the registers that it and its bases annotate. -/

import Mathlib.Data.List.Dedup
import Pypga.Foundation.Dictionary

set_option autoImplicit false
set_option relaxedAutoImplicit false

namespace Pypga.Core.ModuleClasses

open Pypga.Foundation.Dictionary

inductive Kind
  | register | boolRegister | triggerRegister | numberRegister | fixedPointRegister
  deriving DecidableEq

/-- A class that `custom` made of one of the register classes, with the attributes it set. -/
structure RegisterClass (κ : Type*) where
  kind : Kind
  attributes : κ
  deriving DecidableEq

structure Descriptor (κ : Type*) where
  registerClass : RegisterClass κ
  name : String
  deriving DecidableEq

inductive PyError
  | attributeError | assertionError | typeError
  deriving DecidableEq

/-- A value of `_pypga_registers`. -/
inductive Entry (κ : Type*)
  | type (c : RegisterClass κ)
  | instance (d : Descriptor κ)
  deriving DecidableEq

structure Body (κ : Type*) where
  annotations : List (String × RegisterClass κ)
  unique : (annotations.map Prod.fst).Nodup

/-- A class that has been created: its body, the registers in its namespace, and
`_pypga_registers`. -/
structure ModuleClass (κ : Type*) where
  body : Body κ
  own : List (String × Descriptor κ)
  registers : List (String × Entry κ)

variable {κ : Type*}

def Entry.registerClass : Entry κ → RegisterClass κ
  | .type c => c
  | .instance d => d.registerClass

/-- `__get__` without an instance. That of a trigger looks for the interface of `None`. -/
def Descriptor.getOnClass (d : Descriptor κ) : Except PyError (Descriptor κ) :=
  match d.registerClass.kind with
  | .triggerRegister => .error .attributeError
  | _ => .ok d

/-- The names of the attributes that `Module` defines and that creating a class sets. -/
def moduleAttributes : List String :=
  ["__init_subclass__", "_init_module", "_get_parents", "_get_full_name", "registers",
    "_clock_period", "_clock_rate", "_ram_start", "sim", "vis", "__init__", "_pypga_registers",
    "_pypga_logic", "_pypga_submodules"]

/-- The registers in the namespaces of the classes of an inheritance chain, the most derived class
first: the nearest one is found. -/
def lookupAttribute (namespaces : List (List (String × Descriptor κ))) (name : String) :
    Option (Descriptor κ) := namespaces.findSome? (·.lookup name)

/-- `dir`, of the registers: their names in alphabetical order. -/
def dir (namespaces : List (List (String × Descriptor κ))) : List String :=
  (namespaces.flatMap (·.map Prod.fst)).dedup.mergeSort

/-- `typing.get_type_hints`: the annotations of the oldest class come first. -/
def getTypeHints : List (Body κ) → List (String × RegisterClass κ)
  | [] => []
  | body :: bases => update (getTypeHints bases) body.annotations

-- the names that `getattr` finds besides on every class of the chain: those that `object` and `type`
-- have, and for a top module those of `TopModule`
variable (others : String → Bool)

def taken (name : String) : Bool := moduleAttributes.contains name || others name

/-- An attribute of a class: a register, or anything else, which is `none`. -/
def getattr (namespaces : List (List (String × Descriptor κ))) (name : String) :
    Except PyError (Option (Descriptor κ)) :=
  match lookupAttribute namespaces name with
  | some d => d.getOnClass.map some
  | none => if taken others name then .ok none else .error .attributeError

/-- What the scan of `dir` does with one name. -/
def scanName (namespaces : List (List (String × Descriptor κ))) (registers : List (String × Entry κ))
    (name : String) : Except PyError (List (String × Entry κ)) := do
  match ← getattr others namespaces name with
  | some d => pure (setItem registers name (.instance d))
  | none => pure registers

/-- `scan_module_class`, as far as it is about registers: those that are found as attributes
replace the annotated ones. -/
def scanModuleClass (namespaces : List (List (String × Descriptor κ)))
    (hints : List (String × RegisterClass κ)) : Except PyError (List (String × Entry κ)) :=
  (dir namespaces).foldlM (scanName others namespaces) (hints.map fun a => (a.1, .type a.2))

/-- The loop of `__init_subclass__` over the registers; it fills the namespace of the class. -/
def instantiate (bases : List (List (String × Descriptor κ))) (own : List (String × Descriptor κ))
    (a : String × Entry κ) : Except PyError (List (String × Descriptor κ)) :=
  match getattr others (own :: bases) a.1 with
  | .error .attributeError =>
    match a.2 with
    | .type c => .ok (setItem own a.1 ⟨c, a.1⟩)
    -- an instance cannot be called
    | .instance _ => .error .typeError
  | .error e => .error e
  | .ok (some d) => if d.name = a.1 then .ok own else .error .assertionError
  | .ok none => .error .assertionError

/-- `__init_subclass__` of a new class above its bases. -/
def createClass (bases : List (ModuleClass κ)) (body : Body κ) : Except PyError (ModuleClass κ) := do
  let namespaces := bases.map ModuleClass.own
  let registers ← scanModuleClass others namespaces (getTypeHints (body :: bases.map ModuleClass.body))
  let own ← registers.foldlM (instantiate others namespaces) []
  pure ⟨body, own, registers⟩

def createChain : List (Body κ) → Except PyError (List (ModuleClass κ))
  | [] => .ok []
  | body :: bases => do
    let created ← createChain bases
    let c ← createClass others created body
    pure (c :: created)

end Pypga.Core.ModuleClasses
