/- GID: Pypga/Core/ArrayAssignment
   generality: G
   digest: Assigning an array attribute from Python and reading it back, in either direction. -/

import Pypga.Core.ArrayDecoding
import Pypga.Core.WordEncoding

set_option autoImplicit false
set_option relaxedAutoImplicit false

namespace Pypga.Core.ArrayAssignment

open Pypga.Core.Registers
open Pypga.Core.WordEncoding (AnyRegister)

inductive Exception
  | attributeError
  | typeError (message : String)
  deriving DecidableEq

/-- What Python iterates over: a list, or the iterator that `reversed` makes of one. -/
inductive Iterable (α : Type*)
  | list (values : List α)
  | iterator (values : List α)

namespace Iterable

variable {α : Type*}

def reversed (values : List α) : Iterable α := .iterator values.reverse

def elements : Iterable α → List α
  | .list values => values
  | .iterator values => values

end Iterable

/-- `np.asarray` with a number type takes an iterator for a single object. -/
def asarray {α : Type*} : Iterable α → Except Exception (List α)
  | .list values => .ok values
  | .iterator _ => .error (.typeError "float() argument must be a string or a real number")

inductive ArrayClass
  | register (r : Register)
  | number (r : NumberRegister)
  | fixedPoint (r : FixedPointRegister)

namespace ArrayClass

def toAny : ArrayClass → AnyRegister
  | register r => .register r
  | number r => .number r
  | fixedPoint r => .fixedPoint r

def toRegister (c : ArrayClass) : Register := c.toAny.toRegister

/-- `from_python(before_from_python(value))`. -/
def encoded (c : ArrayClass) : ℚ → ℤ := c.toAny.encoded

/-- `to_python` of a single value, without a value where it raises. -/
def toPython : ArrayClass → ℤ → Option ℚ
  | register r, value => some (r.toPython value)
  | number r, value => some (r.toPython value)
  | fixedPoint r, value => r.toPython value

/-- `_to_python_array`; numbers and fixed point numbers override it with an array of numpy. -/
def toPythonArray : ArrayClass → Iterable ℤ → Except Exception (List Quotient)
  | register r, value =>
    .ok ((ArrayDecoding.Register.toPythonArray r value.elements).map fun v : ℤ => .finite v)
  | number r, value => do
    let value ← asarray value
    return (ArrayDecoding.NumberRegister.toPythonArray r value).map .finite
  | fixedPoint r, value => do
    let value ← asarray value
    return ArrayDecoding.FixedPointRegister.toPythonArray r value

/-- The class keeps the comprehension of `_Register`. -/
def IsPlain (c : ArrayClass) : Prop := ∃ r, c = register r

def Exact (c : ArrayClass) (v : ℚ) : Prop :=
  c.toAny.IsWord (c.encoded v) ∧ c.toPython (c.encoded v) = some v

instance (c : ArrayClass) (v : ℚ) : Decidable (c.Exact v) :=
  inferInstanceAs (Decidable ((0 ≤ c.encoded v ∧ c.encoded v < 2 ^ c.toRegister.width) ∧ _))

end ArrayClass

structure ArrayRegister where
  kind : ArrayClass
  several : 2 ≤ kind.toRegister.depth

namespace ArrayRegister

variable (a : ArrayRegister)

def reverse : Bool := a.kind.toRegister.reverse

/-- `read_array` of an interface that keeps the list that was passed to `write_array`. -/
def readArray (stored : List ℤ) : List ℤ := stored.take a.kind.toRegister.depth

/-- `__set__`: the list that is passed to `write_array`. The text of the error for a register that
is read-only names an attribute that there is not. -/
def set (value : List ℚ) : Except Exception (List ℤ) :=
  if a.kind.toRegister.readonly ∨ a.kind.toRegister.ramOffset.isSome then .error .attributeError
  else
    let value : Iterable ℚ := if a.reverse then .reversed value else .list value
    .ok (value.elements.map a.kind.encoded)

/-- `__get__`, from an interface that keeps this list. -/
def get (stored : List ℤ) : Except Exception (List Quotient) :=
  let value := a.readArray stored
  let value : Iterable ℤ := if a.reverse then .reversed value else .list value
  a.kind.toPythonArray value

def initialData (default : Option (List ℚ)) : List ℤ :=
  let data := match default with
    | none => List.replicate a.kind.toRegister.depth 0
    | some default => default.map a.kind.encoded
  if a.reverse then (Iterable.reversed data).elements else data

structure Writable : Prop where
  writable : a.kind.toRegister.readonly = false
  mounted : a.kind.toRegister.ramOffset = none

end ArrayRegister

section ExactValues

/-- A plain register represents the integers whose sum with the offset is one of its words. -/
theorem exact_plain (r : Register) {v : ℤ} (above : 0 ≤ v + r.offsetFromPython)
    (below : v + r.offsetFromPython < 2 ^ r.width) : (ArrayClass.register r).Exact v := by
  have word : (ArrayClass.register r).encoded v = v + r.offsetFromPython := by
    show r.fromPython v = _
    rw [Register.fromPython, py_int_cast, if_neg (by omega), if_neg (by omega)]
  rw [ArrayClass.Exact, word]
  refine ⟨⟨above, below⟩, ?_⟩
  show some ((r.toPython (v + r.offsetFromPython) : ℤ) : ℚ) = some (v : ℚ)
  rw [Register.toPython, add_sub_cancel_right]

/-- A fixed point register without offset and limits represents the value of each of its words. -/
theorem exact_fixed_point (r : FixedPointRegister) (nonempty : 1 ≤ r.width) (scaled : 1 ≤ r.decimals)
    (unshifted : r.offsetFromPython = 0) (own : r.signed = true → r.readWidth = r.width)
    (unlimited : r.min = none ∧ r.max = none) {raw : ℕ} (fits : raw < 2 ^ r.width) :
    ∃ v, r.toPython raw = some v ∧ (ArrayClass.fixedPoint r).Exact v := by
  have read := Quantisation.to_python_word scaled unshifted own raw
  have word : (ArrayClass.fixedPoint r).encoded
      (OffsetLaw.decoded r.toNumberRegister raw / Quantisation.scale r) = raw := by
    show r.fromPython (r.toNumberRegister.beforeFromPython _) = _
    rw [WordEncoding.before_from_python_free unlimited]
    exact Quantisation.read_then_written nonempty scaled unshifted fits
  refine ⟨_, read, ?_⟩
  rw [ArrayClass.Exact, word]
  exact ⟨⟨Int.natCast_nonneg raw, by exact_mod_cast fits⟩, read⟩

end ExactValues

section Decoding

variable {c : ArrayClass} {values : List ℚ}

private theorem decode_list (exact : ∀ v ∈ values, c.Exact v) :
    c.toPythonArray (.list (values.map c.encoded)) = .ok (values.map .finite) := by
  cases c with
  | register r =>
    show Except.ok _ = Except.ok _
    rw [Iterable.elements, ArrayDecoding.Register.toPythonArray, List.map_map, List.map_map]
    refine congrArg _ (List.map_congr_left fun v member => ?_)
    exact congrArg Registers.Quotient.finite (Option.some.inj (exact v member).2)
  | number r =>
    show Except.ok _ = Except.ok _
    rw [ArrayDecoding.number_array_eq, List.map_map, List.map_map]
    refine congrArg _ (List.map_congr_left fun v member => ?_)
    exact congrArg Registers.Quotient.finite (Option.some.inj (exact v member).2)
  | fixedPoint r =>
    show Except.ok _ = Except.ok _
    rw [ArrayDecoding.FixedPointRegister.toPythonArray, ArrayDecoding.number_array_eq, List.map_map,
      List.map_map]
    refine congrArg _ (List.map_congr_left fun v member => ?_)
    have single : r.toPython ((ArrayClass.fixedPoint r).encoded v) = some v := (exact v member).2
    rw [FixedPointRegister.toPython] at single
    split at single
    · cases single
    · rename_i nonzero
      have quotient := Option.some.inj single
      rw [Function.comp_apply, Function.comp_apply, divide, if_neg nonzero, quotient]

private theorem decode_iterator (plain : c.IsPlain) (words : List ℤ) :
    c.toPythonArray (.iterator words) = c.toPythonArray (.list words) := by
  obtain ⟨r, rfl⟩ := plain
  rfl

private theorem decode_iterator_error (overridden : ¬ c.IsPlain) (words : List ℤ) :
    c.toPythonArray (.iterator words) =
      .error (.typeError "float() argument must be a string or a real number") := by
  cases c with
  | register r => exact absurd ⟨r, rfl⟩ overridden
  | number r => rfl
  | fixedPoint r => rfl

end Decoding

section Assignments

variable {a : ArrayRegister}

private theorem initial_some (a : ArrayRegister) (values : List ℚ) : a.initialData (some values) =
    if a.reverse then (values.map a.kind.encoded).reverse else values.map a.kind.encoded := rfl

private theorem set_eq (writable : a.Writable) (values : List ℚ) :
    a.set values = .ok (a.initialData (some values)) := by
  have allowed : ¬ (a.kind.toRegister.readonly = true ∨ a.kind.toRegister.ramOffset.isSome = true) := by
    rw [writable.writable, writable.mounted]
    simp
  rw [ArrayRegister.set, if_neg allowed, initial_some]
  cases a.reverse with
  | false => rfl
  | true => exact congrArg Except.ok List.map_reverse

private theorem get_initial {values : List ℚ} (length : values.length = a.kind.toRegister.depth) :
    a.get (a.initialData (some values)) = a.kind.toPythonArray
      (if a.reverse then .iterator (values.map a.kind.encoded) else .list (values.map a.kind.encoded)) := by
  have whole : a.readArray (a.initialData (some values)) = a.initialData (some values) := by
    rw [ArrayRegister.readArray, ← length, initial_some]
    apply List.take_of_length_le
    split_ifs <;> simp
  rw [ArrayRegister.get, whole, initial_some]
  cases a.reverse with
  | false => rfl
  | true => simp [Iterable.reversed]

end Assignments

/-- An array that is assigned is stored as the initial content with these values would be, and read
back in its order, exactly if it is not reversed or a plain register decodes it. -/
theorem array_assignment_iff (a : ArrayRegister) (writable : a.Writable) (values : List ℚ)
    (length : values.length = a.kind.toRegister.depth) (exact : ∀ v ∈ values, a.kind.Exact v) :
    (a.set values = .ok (a.initialData (some values)) ∧
      a.get (a.initialData (some values)) = .ok (values.map .finite)) ↔
      a.reverse = false ∨ a.kind.IsPlain := by
  have stored := set_eq writable values
  rw [get_initial length]
  constructor
  · rintro ⟨-, same⟩
    cases reverse : a.reverse with
    | false => exact .inl rfl
    | true =>
      right
      by_contra overridden
      rw [reverse, if_pos rfl, decode_iterator_error overridden] at same
      cases same
  · rintro (forwards | plain)
    · rw [forwards, if_neg Bool.false_ne_true]
      exact ⟨stored, decode_list exact⟩
    · refine ⟨stored, ?_⟩
      split
      · rw [decode_iterator plain]
        exact decode_list exact
      · exact decode_list exact

def twoReversed : ArrayRegister where
  kind := .number { width := 4, depth := 2, reverse := true }
  several := by decide

def twoPlain : ArrayRegister where
  kind := .register { width := 4, depth := 2, reverse := true }
  several := by decide

theorem array_assignment_plain :
    twoPlain.set [3, 5] = .ok [5, 3] ∧ twoPlain.get [5, 3] = .ok [.finite 3, .finite 5] :=
  (array_assignment_iff twoPlain ⟨rfl, rfl⟩ [3, 5] rfl (by decide +kernel)).mpr (.inr ⟨_, rfl⟩)

/-- Kept in reverse order as numbers, the values are stored, and reading them raises. -/
theorem array_assignment_counterexample :
    twoReversed.Writable ∧ (∀ v ∈ [3, 5], twoReversed.kind.Exact v) ∧
      twoReversed.set [3, 5] = .ok [5, 3] ∧
      twoReversed.get [5, 3] =
        .error (.typeError "float() argument must be a string or a real number") :=
  ⟨⟨rfl, rfl⟩, by decide +kernel, by decide +kernel, by decide +kernel⟩

end Pypga.Core.ArrayAssignment
