/- GID: Pypga/Core/AssignedValues
   generality: G
   digest: What is read of an attribute after a session is the value that was assigned to it last. -/

import Pypga.Core.Quantisation
import Pypga.Core.RegisterSessions

set_option autoImplicit false
set_option relaxedAutoImplicit false

namespace Pypga.Core.AssignedValues

open Pypga.Foundation.FixedWidth
open Pypga.Foundation.LittleEndian (Word)
open Pypga.Remote.MonitorServer (Bus latch)
open Pypga.Remote.Connection (Config Label)
open Pypga.Core.Registers
open Pypga.Core.WordEncoding
open Pypga.Core.OffsetLaw
open Pypga.Core.Quantisation
open Pypga.Remote.ProtocolRefinement (answered_of_admissible)
open Pypga.Core.RegisterNames (CsrMap Listing registers)
open Pypga.Core.RemoteInterface (Complete complete_exists)
open Pypga.Core.RegisterFile
open Pypga.Core.RegisterSessions

def Holds : AnyRegister → ℚ → Prop
  | .register r, v => ∃ i : ℤ, v = i ∧ 0 ≤ i + r.offsetFromPython ∧ i + r.offsetFromPython < 2 ^ r.width
  | .bool r, v =>
    let word := (if r.invert = decide (v = 0) then 2 ^ r.bit else 0) + r.offsetFromPython
    0 ≤ word ∧ word < 2 ^ r.width
  | .number r, v => 1 ≤ r.width ∧ ∃ i : ℤ, v = i ∧ InRange r i ∧ InLimits r i ∧
    InRange r (i + r.offsetFromPython) ∧ (i < 0 ↔ i + r.offsetFromPython < 0)
  | .fixedPoint r, v => 1 ≤ r.width ∧ 1 ≤ r.decimals ∧ r.offsetFromPython = 0 ∧
    r.toNumberRegister.beforeFromPython v = v

def ReadsBack : AnyRegister → ℚ → PyValue → Prop
  | .register _, v, p | .number _, v, p => ∃ i : ℤ, v = i ∧ p = .int i
  | .bool _, v, p => p = .bool (decide (v ≠ 0))
  | .fixedPoint r, v, p => ∃ q, p = .float q ∧ NearestOf r v q

structure Returns (k : AnyRegister) (v : ℚ) : Prop where
  word : k.IsWord (k.encoded v)
  read : ∃ p, toPython k (k.encoded v) = .ok p ∧ ReadsBack k v p

section Classes

variable {v : ℚ}

private theorem register_returns {r : Registers.Register} (holds : Holds (.register r) v) :
    Returns (.register r) v := by
  obtain ⟨i, rfl, nonneg, small⟩ := holds
  have word : r.fromPython (i : ℚ) = i + r.offsetFromPython := by
    rw [Register.fromPython, py_int_cast, if_neg (by omega), if_neg (by omega)]
  refine ⟨?_, .int i, ?_, i, rfl, rfl⟩
  · show 0 ≤ r.fromPython (i : ℚ) ∧ r.fromPython (i : ℚ) < _
    rw [word]
    exact ⟨nonneg, small⟩
  · show Except.ok (PyValue.int (r.toPython (r.fromPython (i : ℚ)))) = _
    rw [word, Register.toPython, Int.add_sub_cancel]

private theorem bool_returns {r : BoolRegister} (holds : Holds (.bool r) v) :
    Returns (.bool r) v := by
  obtain ⟨nonneg, small⟩ := holds
  have word : r.fromPython v =
      (if r.invert = decide (v = 0) then 2 ^ r.bit else 0) + r.offsetFromPython := by
    have bit : pyInt ((((if r.invert then !decide (v ≠ 0) else decide (v ≠ 0)) : Bool).toNat
        <<< r.bit : ℕ) : ℚ) = if r.invert = decide (v = 0) then 2 ^ r.bit else 0 := by
      rw [← Int.cast_natCast, py_int_cast, Nat.shiftLeft_eq]
      by_cases zero : v = 0 <;> cases r.invert <;> simp [zero]
    rw [BoolRegister.fromPython, Register.fromPython, bit, if_neg (by omega), if_neg (by omega)]
  refine ⟨?_, _, rfl, ?_⟩
  · show 0 ≤ r.fromPython v ∧ r.fromPython v < _
    rw [word]
    exact ⟨nonneg, small⟩
  · show PyValue.bool (r.toPython (r.fromPython v)) = .bool (decide (v ≠ 0))
    have power : (2 : ℤ) ^ r.bit ≠ 0 := by positivity
    have digit : (if r.invert = decide (v = 0) then (2 : ℤ) ^ r.bit else 0) / 2 ^ r.bit % 2 =
        if r.invert = decide (v = 0) then 1 else 0 := by
      split
      · rw [Int.ediv_self power]
        rfl
      · rw [Int.zero_ediv]
        rfl
    rw [word, BoolRegister.toPython, Register.toPython, Int.add_sub_cancel, digit]
    by_cases zero : v = 0 <;> cases inverted : r.invert <;> simp [zero]

private theorem number_returns {r : NumberRegister} (held : r.ramOffset = none)
    (holds : Holds (.number r) v) : Returns (.number r) v := by
  obtain ⟨nonempty, i, rfl, inside, within, target, sign⟩ := holds
  have moved : complement r i + r.offsetFromPython = complement r (i + r.offsetFromPython) := by
    unfold complement
    split_ifs <;> omega
  obtain ⟨nonneg, small⟩ := complement_lt nonempty target
  have word : r.fromPython (r.beforeFromPython i) = complement r (i + r.offsetFromPython) := by
    rw [word_eq inside within, moved]
    omega
  refine ⟨?_, .int i, ?_, i, rfl, rfl⟩
  · show 0 ≤ r.fromPython (r.beforeFromPython i) ∧ r.fromPython (r.beforeFromPython i) < _
    rw [word]
    exact ⟨nonneg, small⟩
  · show Except.ok (PyValue.int (r.toPython (r.fromPython (r.beforeFromPython i)))) = _
    rw [word, to_python_eq fun _ => read_width_of_held held, ← moved, Int.add_sub_cancel,
      decoded_complement nonempty inside]

private theorem fixed_point_returns {r : FixedPointRegister} (held : r.ramOffset = none)
    (holds : Holds (.fixedPoint r) v) : Returns (.fixedPoint r) v := by
  obtain ⟨nonempty, scaled, unshifted, within⟩ := holds
  have word : (AnyRegister.fixedPoint r).encoded v = r.fromPython v :=
    congrArg r.fromPython within
  have own : r.signed = true → r.readWidth = r.width := fun _ => read_width_of_held held
  refine ⟨?_, .float (step r v / scale r), ?_, _, rfl, step_nearest (scale_pos scaled) v⟩
  · rw [word, from_python_eq nonempty unshifted]
    exact complement_lt nonempty (step_range v)
  · rw [word, toPython, written_then_read nonempty scaled unshifted own]

theorem returns_of_holds {k : AnyRegister} (held : k.toRegister.ramOffset = none)
    (holds : Holds k v) : Returns k v := by
  cases k with
  | register r => exact register_returns holds
  | bool r => exact bool_returns holds
  | number r => exact number_returns held holds
  | fixedPoint r => exact fixed_point_returns held holds

private theorem stored_word {w : ℕ} {x : ℤ} (nonneg : 0 ≤ x) (small : x < 2 ^ w) :
    ((BitVec.ofInt w x).toNat : ℤ) = x := by
  have power : ((2 ^ w : ℕ) : ℤ) = 2 ^ w := by push_cast; rfl
  rw [BitVec.toNat_ofInt, power, Int.emod_eq_of_lt nonneg small, Int.toNat_of_nonneg nonneg]

end Classes

section Sessions

variable {kind : RegisterNames.Register → Kind} {rs : List RegisterNames.Register} {l : Listing rs}
  (addressed : Addressed kind l) {ρ : Type*} (logic : Logic kind ρ) (rest : Bus ρ)
  {uint32 : ℤ → Option Word} (converts : Converts uint32)
variable {r : RegisterNames.Register} {k : AnyRegister} (shape : kind r = .value k)
  (writable : k.toRegister.readonly = false) (member : r ∈ rs) (scalar : (kind r).scalar = true)
variable {statements : List Statement}
variable {buffer : ℕ → Word} {m : Machine kind ρ} {labels : List Label} {c : Config (Machine kind ρ)}

def contents (uint32 : ℤ → Option Word) (k : AnyRegister) (r : RegisterNames.Register)
    (statements : List Statement) (m : Machine kind ρ) : BitVec (kind r).width :=
  ((lastAssigned uint32 k r statements).map fun v => BitVec.ofInt _ (k.encoded v)).getD (m.storage r)

theorem last_assigned_kept {uint32 : ℤ → Option Word} {k : AnyRegister} {v : ℚ}
    (taken : (uint32 (k.encoded v)).isSome = true) {before between : List Statement}
    (kept : ∀ s ∈ between, ∀ u, s ≠ .set r u) :
    lastAssigned uint32 k r (before ++ .set r v :: between) = some v := by
  have none : lastAssigned uint32 k r between = none := by
    induction between with
    | nil => rfl
    | cons s between ih =>
      have later := ih fun other there => kept other (List.mem_cons_of_mem s there)
      cases s with
      | set r' u =>
        have differ : r' ≠ r := by
          rintro rfl
          exact kept _ List.mem_cons_self u rfl
        simp [lastAssigned, later, differ]
      | _ => exact later
  induction before with
  | nil => simp [lastAssigned, none, taken]
  | cons s before ih => cases s <;> simp [lastAssigned, ih]

include addressed converts shape writable member scalar

private theorem last_result
    (inside : ∀ s ∈ statements, s.register ∈ rs ∧ (kind s.register).scalar = true)
    (complete : Complete (csrBus rs (word l) logic rest)
      (clientOps kind uint32 (CsrMap.load l.rows) (statements ++ [.get r])) buffer m labels c) :
    (results kind uint32 (CsrMap.load l.rows) (statements ++ [.get r])
      (c.client.returned.map Prod.snd)).getLast? =
        some (toPython k (contents uint32 k r statements m).toNat) := by
  have all : ∀ s ∈ statements ++ [.get r], s.register ∈ rs ∧ (kind s.register).scalar = true := by
    intro s there
    rcases List.mem_append.mp there with earlier | last
    · exact inside s earlier
    · obtain rfl := List.mem_singleton.mp last
      exact ⟨member, scalar⟩
  have held : (kind r).readonly = false := by rw [shape, Kind.readonly, writable]
  have read (m : Machine kind ρ) :
      (perform logic uint32 (.get r) m).1 = toPython k (m.storage r).toNat := by
    simp only [perform, shape]
    rw [Machine.value, if_neg (by simp [held])]
  rw [(complete_session addressed logic rest converts all complete).1, perform_all_append]
  simp only [performAll, List.getLast?_concat]
  rw [read, storage_last logic uint32 shape writable]
  rfl

/-- A read at the end of a session gives the value of the word that was assigned to its register
last, or of the one it had before; of a value that the register can hold, the value itself. -/
theorem reads_last_assignment
    (inside : ∀ s ∈ statements, s.register ∈ rs ∧ (kind s.register).scalar = true)
    (complete : Complete (csrBus rs (word l) logic rest)
      (clientOps kind uint32 (CsrMap.load l.rows) (statements ++ [.get r])) buffer m labels c) :
    (results kind uint32 (CsrMap.load l.rows) (statements ++ [.get r])
      (c.client.returned.map Prod.snd)).getLast? =
        some (toPython k (contents uint32 k r statements m).toNat) ∧
    ∀ before v between, statements = before ++ .set r v :: between →
      (∀ s ∈ between, ∀ u, s ≠ .set r u) → Holds k v →
        ∃ p, (results kind uint32 (CsrMap.load l.rows) (statements ++ [.get r])
          (c.client.returned.map Prod.snd)).getLast? = some (.ok p) ∧ ReadsBack k v p := by
  have last := last_result addressed logic rest converts shape writable member scalar inside complete
  refine ⟨last, ?_⟩
  rintro before v between rfl kept holds
  have same : k.toRegister.width = (kind r).width := by rw [shape]; rfl
  have held : k.toRegister.ramOffset = none := by
    simp only [shape, Kind.scalar, Bool.decide_and, Bool.and_eq_true, decide_eq_true_eq] at scalar
    exact scalar.2
  obtain ⟨⟨nonneg, small⟩, p, read, back⟩ := returns_of_holds held holds
  rw [same] at small
  have bound : (2 : ℤ) ^ (kind r).width ≤ 2 ^ 32 :=
    pow_le_pow_right₀ (by decide) (addressed.narrow r member scalar)
  have taken : (uint32 (k.encoded v)).isSome = true := by
    rw [converts.fits _ nonneg (by omega)]
    rfl
  have stored : ((contents uint32 k r (before ++ .set r v :: between) m).toNat : ℤ) =
      k.encoded v := by
    rw [contents, last_assigned_kept taken kept]
    exact stored_word nonneg small
  rw [last, stored, read]
  exact ⟨p, rfl, back⟩

end Sessions

theorem reads_last_assignment_amplitude :
    ∃ labels c p, Complete generatorBus
      (clientOps generatorKind wrapping (CsrMap.load generatorFile.rows) generatorSession)
        (fun _ => 0) ⟨fun _ => 0, 0⟩ labels c ∧
      (results generatorKind wrapping (CsrMap.load generatorFile.rows) generatorSession
        (c.client.returned.map Prod.snd)).getLast? = some (.ok p) ∧
      ReadsBack (.fixedPoint amplitude) (1 / 2) p := by
  have inside : ∀ s ∈ generatorSession.dropLast, s.register ∈ registers generator (.top "top") ∧
      (generatorKind s.register).scalar = true := by decide
  have kept : ∀ s ∈ generatorSession.dropLast.tail, ∀ u, s ≠ .set (awg "amplitude") u := by
    rintro s there u rfl
    simp [generatorSession, awg] at there
  obtain ⟨admissible, -⟩ := statements_run generator_addressed counting latch wrapping_converts
    generator_session_inside ⟨fun _ => 0, 0⟩
  obtain ⟨labels, c, complete⟩ := complete_exists generatorBus (fun _ => 0) ⟨fun _ => 0, 0⟩
    fun op there => answered_of_admissible (admissible op there)
  obtain ⟨p, read, back⟩ := (reads_last_assignment generator_addressed counting latch
    wrapping_converts (r := awg "amplitude") (k := .fixedPoint amplitude)
    rfl rfl (by decide) (by decide) inside
    complete).2 [] (1 / 2) _ rfl kept ⟨by decide, by decide, rfl, rfl⟩
  exact ⟨labels, c, p, complete, read, back⟩

end Pypga.Core.AssignedValues
