/- GID: Pypga/Modules/SampleReduction
   generality: G
   digest: The sync logic of the DAQ, which reduces the inputs since the last pulse to one value. -/

import Pypga.Foundation.PeakHold
import Pypga.Modules.Daq

set_option autoImplicit false
set_option relaxedAutoImplicit false

namespace Pypga.Modules.SampleReduction

open Pypga.Foundation.ClockedMachine (run run_succ)
open Pypga.Foundation.PeakHold
open Pypga.Migen.PulseGenerators (BurstGen)

def number {n : ℕ} (signed : Bool) (v : BitVec n) : ℤ := if signed then v.toInt else v.toNat

def resize {n : ℕ} (signed : Bool) (m : ℕ) (v : BitVec n) : BitVec m :=
  if signed then v.signExtend m else v.setWidth m

structure Signals (width : ℕ) where
  input : BitVec width
  inverseFactorSamplingPeriodCycles : ℤ
  edgeThreshold : BitVec width
  offset : BitVec width
  reduceMode : ℕ

structure Reduction (width maxSamplesInBits : ℕ) where
  value : BitVec width
  averageValue : BitVec width
  valueMax : BitVec width
  valueMin : BitVec width
  sumvalue : BitVec (width + maxSamplesInBits)
  oldsum : BitVec (width + maxSamplesInBits)
  count : BitVec maxSamplesInBits
  edgeCount : BitVec 22
  notAboveThreshold : Bool
  busy : Bool

variable {width bits : ℕ}

namespace Reduction

def powerUp (width maxSamplesInBits : ℕ) : Reduction width maxSamplesInBits :=
  ⟨0, 0, 0, 0, 0, 0, 0, 0, false, false⟩

variable (signed : Bool) (i : Signals width) (s : Reduction width bits)

/-- The division is a multiplication with the inverse, over exact integers. -/
def average : BitVec width :=
  BitVec.ofInt width ((number signed s.oldsum * i.inverseFactorSamplingPeriodCycles).shiftRight 16)

/-- A pulse restarts the time bin with the input of its cycle. -/
def restart : Reduction width bits :=
  { s with
    sumvalue := resize signed _ i.input
    valueMax := i.input
    valueMin := i.input
    count := 0
    edgeCount := 0 }

def edge : Bool := s.notAboveThreshold && decide (number signed i.edgeThreshold < number signed i.input)

def accumulate : Reduction width bits :=
  { s with
    sumvalue := s.sumvalue + resize signed _ i.input
    count := s.count + 1
    valueMax := if number signed s.valueMax < number signed i.input then i.input else s.valueMax
    valueMin := if number signed i.input < number signed s.valueMin then i.input else s.valueMin
    edgeCount := if s.edge signed i then s.edgeCount + 1 else s.edgeCount }

/-- What the reduce mode selects; without a case the value stays. -/
def selected : BitVec width :=
  match i.reduceMode with
  | 0 => s.averageValue
  | 1 => s.valueMax
  | 2 => s.valueMin
  | 3 => i.input
  | 4 => s.edgeCount.setWidth width
  | 5 => i.offset
  | 6 => s.count.setWidth width
  | _ => s.value

def next (g : BurstGen) : Reduction width bits :=
  { (if g.out then s.restart signed i else if g.busy then s.accumulate signed i else s) with
    oldsum := s.sumvalue
    notAboveThreshold := decide (number signed i.input < number signed i.edgeThreshold)
    averageValue := s.average signed i
    busy := g.busy
    value := s.selected i }

end Reduction

def reduction (signed : Bool) (maxSamplesInBits : ℕ) (r : ℕ → BurstGen) (i : ℕ → Signals width) :
    ℕ → Reduction width maxSamplesInBits :=
  run (fun x : BurstGen × Signals width => fun s => s.next signed x.2 x.1)
    (Reduction.powerUp width maxSamplesInBits) fun k => (r k, i k)

def value (signed : Bool) (maxSamplesInBits : ℕ) (r : ℕ → BurstGen) (i : ℕ → Signals width) (k : ℕ) :
    BitVec width :=
  (reduction signed maxSamplesInBits r i k).value

variable {signed : Bool} {r : ℕ → BurstGen} {i : ℕ → Signals width}

theorem reduction_succ (k : ℕ) :
    reduction signed bits r i (k + 1) = (reduction signed bits r i k).next signed (i k) (r k) :=
  run_succ _ _ _ k

theorem value_succ (k : ℕ) :
    value signed bits r i (k + 1) = (reduction signed bits r i k).selected (i k) := by
  rw [value, reduction_succ]
  rfl

theorem number_injective {n : ℕ} : Function.Injective (number signed : BitVec n → ℤ) := by
  intro x y same
  cases signed with
  | false => exact BitVec.eq_of_toNat_eq (Int.ofNat.inj same)
  | true => exact BitVec.eq_of_toInt_eq same

section Accumulators

variable {s : Reduction width bits} {g : BurstGen} {j : Signals width}

theorem next_sumvalue : (s.next signed j g).sumvalue =
    if g.out then resize signed _ j.input
    else if g.busy then s.sumvalue + resize signed _ j.input else s.sumvalue := by
  rw [Reduction.next]
  split_ifs <;> rfl

theorem next_count : (s.next signed j g).count =
    if g.out then 0 else if g.busy then s.count + 1 else s.count := by
  rw [Reduction.next]
  split_ifs <;> rfl

theorem next_edge_count : (s.next signed j g).edgeCount =
    if g.out then 0 else if g.busy && s.edge signed j then s.edgeCount + 1 else s.edgeCount := by
  cases pulse : g.out with
  | true => simp [Reduction.next, Reduction.restart, pulse]
  | false =>
    cases busy : g.busy with
    | true => simp [Reduction.next, Reduction.accumulate, pulse, busy]
    | false => simp [Reduction.next, pulse, busy]

end Accumulators

section Peaks

def Reduction.peak (least : Bool) (s : Reduction width bits) : BitVec width :=
  if least then s.valueMin else s.valueMax

variable {s : Reduction width bits} {g : BurstGen} {j : Signals width} (least : Bool)

variable {least} in
theorem selected_peak (mode : j.reduceMode = if least then 2 else 1) : s.selected j = s.peak least := by
  cases least <;> simp [Reduction.selected, Reduction.peak, mode]

private theorem next_peak_restart (pulse : g.out = true) :
    (s.next signed j g).peak least = j.input := by
  cases least <;> simp [Reduction.next, Reduction.peak, Reduction.restart, pulse]

private theorem next_peak_accumulate (quiet : g.out = false) (busy : g.busy = true) :
    number signed ((s.next signed j g).peak least) =
      better least (number signed (s.peak least)) (number signed j.input) := by
  cases least with
  | false =>
    show number signed (s.next signed j g).valueMax = max (number signed s.valueMax) _
    simp only [Reduction.next, Reduction.accumulate, quiet, busy, Bool.false_eq_true, if_false, if_true]
    split
    · rename_i above
      exact (max_eq_right above.le).symm
    · rename_i below
      exact (max_eq_left (not_lt.mp below)).symm
  | true =>
    show number signed (s.next signed j g).valueMin = min (number signed s.valueMin) _
    simp only [Reduction.next, Reduction.accumulate, quiet, busy, Bool.false_eq_true, if_false, if_true]
    split
    · rename_i below
      exact (min_eq_right below.le).symm
    · rename_i above
      exact (min_eq_left (not_lt.mp above)).symm

private theorem next_peak_idle (quiet : g.out = false) (idle : g.busy = false) :
    (s.next signed j g).peak least = s.peak least := by
  cases least <;> simp [Reduction.next, Reduction.peak, quiet, idle]

theorem peak_unchanged_iff :
    (s.next signed j g).peak least = s.peak least ↔
      if g.out then j.input = s.peak least
      else g.busy = true → better least (number signed (s.peak least)) (number signed j.input) =
        number signed (s.peak least) := by
  cases pulse : g.out with
  | true => rw [next_peak_restart least pulse, if_pos rfl]
  | false =>
    rw [if_neg Bool.false_ne_true]
    cases busy : g.busy with
    | false => exact iff_of_true (next_peak_idle least pulse busy) fun high => absurd high Bool.false_ne_true
    | true =>
      rw [← number_injective.eq_iff (a := (s.next signed j g).peak least),
        next_peak_accumulate least pulse busy]
      constructor
      · intro kept _
        exact kept
      · intro kept
        exact kept rfl

theorem reduction_peak {u v : ℕ} (before : u < v) (pulse : (r u).out = true)
    (rest : ∀ k, u < k → k < v → (r k).out = false ∧ (r k).busy = true) :
    Extremum least (seen (fun k => number signed (i k).input) u v)
      (number signed ((reduction signed bits r i v).peak least)) := by
  refine extremum_of_hold (fun k => number signed ((reduction signed bits r i k).peak least)) before ?_ ?_
  · rw [reduction_succ, next_peak_restart least pulse]
  · intro k later earlier
    obtain ⟨quiet, busy⟩ := rest k later earlier
    rw [reduction_succ, next_peak_accumulate least quiet busy]

end Peaks

end Pypga.Modules.SampleReduction
