/- GID: Pypga/Modules/Counter
   generality: G
   digest: The counter module is a counter of its width until its wider inner counter shows. -/

import Pypga.Migen.Counter

set_option autoImplicit false
set_option relaxedAutoImplicit false

namespace Pypga.Modules.Counter

open Pypga.Foundation.ClockedMachine (run run_succ)
open Pypga.Foundation.FixedWidth
open Pypga.Migen.Counter (Direction Input moved Wraps stepping moved_zero
  moved_add count_steps carry_steps)

/-- The arguments of `Counter`; the registers keep their defaults. -/
structure Arguments where
  width : ℕ := 32
  defaultStart : ℕ := 0
  defaultStop : Option ℕ := none
  defaultStep : ℕ := 1
  direction : Direction := .up

/-- The registers that change: `on`, and the strobe of `reset`. -/
structure Control where
  on : Bool
  reset : Bool

/-- The width of a `MigenCounter` that is given none. -/
def innerWidth : ℕ := 32

namespace Arguments

variable (a : Arguments)

structure Fits : Prop where
  width : 1 ≤ a.width ∧ a.width ≤ innerWidth
  start : a.defaultStart < 2 ^ a.width
  step : a.defaultStep < 2 ^ a.width
  stop : ∀ stop ∈ a.defaultStop, stop < 2 ^ a.width

def input (c : Control) : Input where
  start := a.defaultStart
  stop := a.defaultStop
  step := a.defaultStep
  reset := c.reset
  on := c.on

def counter (w : ℕ → Control) : ℕ → ℕ :=
  run (fun c => Migen.Counter.next innerWidth a.direction (a.input c))
    (trunc (innerWidth + 1) a.defaultStart) w

/-- The register `count` has only the width of the module. -/
def count (s : ℕ) : ℕ := trunc a.width (Migen.Counter.count innerWidth s)

def carry (s : ℕ) : Bool := Migen.Counter.carry innerWidth s

def done (s : ℕ) : Bool := Migen.Counter.done innerWidth s a.defaultStop

def stepped (w : ℕ → Control) (t : ℕ) : Bool :=
  !(w t).reset && stepping innerWidth (a.input (w t)) (a.counter w t)

def steps (w : ℕ → Control) : ℕ → ℕ
  | 0 => 0
  | t + 1 => if (w t).reset then 0 else if a.stepped w t then steps w t + 1 else steps w t

/-- The value of an unbounded counter after `k` steps. -/
def total (k : ℕ) : ℤ :=
  match a.direction with
  | .up => a.defaultStart + k * a.defaultStep
  | .down => a.defaultStart - k * a.defaultStep

def value (k : ℕ) : ℕ := trunc a.width (a.total k)

/-- The registers show a counter of the width of the module that has taken `k` steps. -/
structure Shows (s k : ℕ) : Prop where
  count : a.count s = a.value k
  carry : carry s = true ↔ ∃ j, k = j + 1 ∧ Wraps a.width a.direction (a.value j) a.defaultStep
  done : ∀ stop ∈ a.defaultStop, a.done s = true ↔ a.count s = stop

/-- The step number `k` does not show the bits of the inner counter that the registers lack:
it does not leave the range of the width, or only the lower end, not onto the stop. -/
def Covered (k : ℕ) : Prop :=
  a.width = innerWidth ∨ (0 ≤ a.total k ∧ a.total k < 2 ^ a.width) ∨
    (-2 ^ a.width ≤ a.total k ∧ a.total k < 0 ∧
      ∀ stop ∈ a.defaultStop, (stop : ℤ) ≠ a.total k + 2 ^ a.width)

end Arguments

variable {a : Arguments} (fits : a.Fits)

/-- The inner counter after `k` steps. -/
def inner (a : Arguments) : ℕ → ℕ
  | 0 => trunc (innerWidth + 1) a.defaultStart
  | k + 1 => trunc (innerWidth + 1)
    (moved a.direction (Migen.Counter.count innerWidth (inner a k)) a.defaultStep)

private theorem counter_eq (w : ℕ → Control) (t : ℕ) : a.counter w t = inner a (a.steps w t) := by
  induction t with
  | zero => rfl
  | succ t ih =>
    have edge : a.counter w (t + 1) =
        Migen.Counter.next innerWidth a.direction (a.input (w t)) (a.counter w t) := run_succ _ _ _ t
    rw [edge, Arguments.steps, Migen.Counter.next]
    cases reset : (w t).reset with
    | true =>
      have same : (a.input (w t)).reset = true := reset
      rw [if_pos same]
      rfl
    | false =>
      have same : ¬ (a.input (w t)).reset = true := by simp [Arguments.input, reset]
      have stepped : a.stepped w t = stepping innerWidth (a.input (w t)) (a.counter w t) := by
        simp [Arguments.stepped, reset]
      rw [if_neg same, stepped, if_neg Bool.false_ne_true]
      split
      · rw [ih]
        rfl
      · exact ih

private theorem total_eq_moved (k : ℕ) :
    a.total k = moved a.direction a.defaultStart (k * a.defaultStep) := by
  unfold Arguments.total moved
  cases a.direction <;> push_cast <;> rfl

private theorem total_succ (k : ℕ) :
    a.total (k + 1) = a.total k + moved a.direction 0 a.defaultStep := by
  rw [total_eq_moved, total_eq_moved, Nat.succ_mul, moved_add]

private theorem total_zero : a.total 0 = a.defaultStart := by
  rw [total_eq_moved, Nat.zero_mul, moved_zero]

private theorem count_inner (k : ℕ) :
    Migen.Counter.count innerWidth (inner a k) = trunc innerWidth (a.total k) := by
  rw [total_eq_moved]
  exact count_steps rfl (fun _ => rfl) k

include fits in
theorem count_shown (k : ℕ) : a.count (inner a k) = a.value k := by
  rw [Arguments.count, count_inner, trunc_trunc fits.width.2]
  rfl

private theorem done_inner {stop : ℕ} (configured : stop ∈ a.defaultStop) (k : ℕ) :
    a.done (inner a k) = true ↔ trunc innerWidth (a.total k) = stop := by
  rw [Arguments.done, Migen.Counter.done, Option.mem_def.mp configured, count_inner]
  simp

include fits in
private theorem small_range : (2 : ℤ) ^ a.width ≤ 2 ^ innerWidth :=
  pow_le_pow_right₀ (by omega) fits.width.2

include fits in
private theorem carry_inner (k : ℕ) :
    Arguments.carry (inner a (k + 1)) = true ↔
      Wraps innerWidth a.direction (trunc innerWidth (a.total k)) a.defaultStep := by
  have small : a.defaultStep ≤ 2 ^ innerWidth :=
    fits.step.le.trans (Nat.pow_le_pow_right (by omega) fits.width.2)
  rw [total_eq_moved]
  exact carry_steps rfl (fun _ => rfl) small k

include fits in
private theorem shows_zero : a.Shows (inner a 0) 0 ∧ a.Covered 0 := by
  have start : (a.defaultStart : ℤ) < 2 ^ a.width := by exact_mod_cast fits.start
  have range := small_range fits
  have total := total_zero (a := a)
  have power : (2 : ℤ) ^ (innerWidth + 1) = 2 * 2 ^ innerWidth := by rw [pow_succ']
  refine ⟨⟨count_shown fits 0, ?_, ?_⟩, .inr (.inl ⟨by omega, by omega⟩)⟩
  · have low : (trunc (innerWidth + 1) a.defaultStart : ℤ) = a.defaultStart :=
      trunc_of_nonneg (by omega) (by omega)
    rw [Arguments.carry, inner, Migen.Counter.carry_iff (trunc_lt _ _)]
    constructor
    · intro high
      have high : (2 : ℤ) ^ innerWidth ≤ trunc (innerWidth + 1) a.defaultStart := by exact_mod_cast high
      omega
    · rintro ⟨j, none, -⟩
      omega
  · intro stop configured
    have same : trunc innerWidth (a.total 0) = a.value 0 := by
      have first : (trunc innerWidth (a.total 0) : ℤ) = a.total 0 := trunc_of_nonneg (by omega) (by omega)
      have second : (a.value 0 : ℤ) = a.total 0 := trunc_of_nonneg (by omega) (by omega)
      omega
    rw [done_inner configured, count_shown fits, same]

include fits in
private theorem shows_succ_iff (k : ℕ) :
    a.Shows (inner a (k + 1)) (k + 1) ↔
      (Wraps innerWidth a.direction (trunc innerWidth (a.total k)) a.defaultStep ↔
          Wraps a.width a.direction (a.value k) a.defaultStep) ∧
        ∀ stop ∈ a.defaultStop,
          trunc innerWidth (a.total (k + 1)) = stop ↔ a.value (k + 1) = stop := by
  have last : (∃ j, k + 1 = j + 1 ∧ Wraps a.width a.direction (a.value j) a.defaultStep) ↔
      Wraps a.width a.direction (a.value k) a.defaultStep := by
    constructor
    · rintro ⟨j, same, wraps⟩
      obtain rfl : k = j := by omega
      exact wraps
    · intro wraps
      exact ⟨k, rfl, wraps⟩
  constructor
  · rintro ⟨-, carry, done⟩
    rw [carry_inner fits, last] at carry
    refine ⟨carry, ?_⟩
    intro stop configured
    rw [← count_shown fits, ← done_inner configured]
    exact done stop configured
  · rintro ⟨carry, done⟩
    refine ⟨count_shown fits _, ?_, ?_⟩
    · rw [carry_inner fits, last]
      exact carry
    · intro stop configured
      rw [done_inner configured, count_shown fits]
      exact done stop configured

include fits in
private theorem covered_values {k : ℕ} (narrow : a.width < innerWidth) (covered : a.Covered k) :
    (0 ≤ a.total k ∧ a.total k < 2 ^ a.width ∧ (trunc innerWidth (a.total k) : ℤ) = a.total k ∧
        (a.value k : ℤ) = a.total k) ∨
      (-2 ^ a.width ≤ a.total k ∧ a.total k < 0 ∧
        (trunc innerWidth (a.total k) : ℤ) = a.total k + 2 ^ innerWidth ∧
          (a.value k : ℤ) = a.total k + 2 ^ a.width) := by
  have range := small_range fits
  rcases covered with whole | ⟨nonneg, small⟩ | ⟨above, negative, -⟩
  · omega
  · exact .inl ⟨nonneg, small, trunc_of_nonneg nonneg (by omega), trunc_of_nonneg nonneg small⟩
  · exact .inr ⟨above, negative, trunc_of_neg (by omega) negative, trunc_of_neg above negative⟩

private theorem double_range (narrow : a.width < innerWidth) :
    2 * (2 : ℤ) ^ a.width ≤ 2 ^ innerWidth := by
  rw [← pow_succ']
  exact pow_le_pow_right₀ (by omega) narrow

section Narrow

variable (narrow : a.width < innerWidth)
include fits narrow

/-- After a covered step only a value out of reach of both tells the carries apart. -/
private theorem wraps_agree_iff {k : ℕ} (covered : a.Covered k) :
    (Wraps innerWidth a.direction (trunc innerWidth (a.total k)) a.defaultStep ↔
        Wraps a.width a.direction (a.value k) a.defaultStep) ↔
      -2 ^ a.width ≤ a.total (k + 1) ∧ a.total (k + 1) < 2 ^ a.width := by
  have values := covered_values fits narrow covered
  have step : (a.defaultStep : ℤ) < 2 ^ a.width := by exact_mod_cast fits.step
  have start : (a.defaultStart : ℤ) < 2 ^ a.width := by exact_mod_cast fits.start
  have gap := double_range narrow
  have next := total_succ (a := a) k
  have up : ∀ w c : ℕ, 2 ^ w ≤ c + a.defaultStep ↔ (2 : ℤ) ^ w ≤ c + a.defaultStep := by
    intro w c
    exact_mod_cast Iff.rfl
  cases way : a.direction with
  | up =>
    have above : 0 ≤ a.total k := by
      rw [Arguments.total, way]
      positivity
    rw [way, moved] at next
    rw [Wraps, Wraps, up, up]
    omega
  | down =>
    have below : a.total k ≤ a.defaultStart := by
      have nonneg : (0 : ℤ) ≤ k * a.defaultStep := by positivity
      rw [Arguments.total, way]
      show (a.defaultStart : ℤ) - k * a.defaultStep ≤ a.defaultStart
      omega
    rw [way, moved] at next
    rw [Wraps, Wraps]
    omega

private theorem stops_agree_iff {k : ℕ} (above : -2 ^ a.width ≤ a.total k)
    (below : a.total k < 2 ^ a.width) :
    (∀ stop ∈ a.defaultStop, trunc innerWidth (a.total k) = stop ↔ a.value k = stop) ↔
      0 ≤ a.total k ∨ ∀ stop ∈ a.defaultStop, (stop : ℤ) ≠ a.total k + 2 ^ a.width := by
  have gap := double_range narrow
  rcases lt_or_ge (a.total k) 0 with negative | nonneg
  · have inner_count : (trunc innerWidth (a.total k) : ℤ) = a.total k + 2 ^ innerWidth :=
      trunc_of_neg (by omega) negative
    have value : (a.value k : ℤ) = a.total k + 2 ^ a.width := trunc_of_neg above negative
    rw [or_iff_right (by omega)]
    apply forall₂_congr
    intro stop configured
    have small : (stop : ℤ) < 2 ^ a.width := by exact_mod_cast fits.stop stop configured
    omega
  · have inner_count : (trunc innerWidth (a.total k) : ℤ) = a.total k :=
      trunc_of_nonneg nonneg (by omega)
    have value : (a.value k : ℤ) = a.total k := trunc_of_nonneg nonneg below
    refine iff_of_true ?_ (.inl nonneg)
    intro stop _
    omega

end Narrow

include fits in
private theorem shows_iff_covered {k : ℕ} (covered : a.Covered k) :
    a.Shows (inner a (k + 1)) (k + 1) ↔ a.Covered (k + 1) := by
  rw [shows_succ_iff fits]
  rcases Nat.lt_or_eq_of_le fits.width.2 with narrow | whole
  · rw [wraps_agree_iff fits narrow covered, Arguments.Covered, or_iff_right narrow.ne]
    constructor
    · rintro ⟨⟨above, below⟩, stops⟩
      rcases (stops_agree_iff fits narrow above below).mp stops with nonneg | missed
      · exact .inl ⟨nonneg, below⟩
      · rcases lt_or_ge (a.total (k + 1)) 0 with negative | nonneg
        · exact .inr ⟨above, negative, missed⟩
        · exact .inl ⟨nonneg, below⟩
    · have positive : (0 : ℤ) < 2 ^ a.width := by positivity
      rintro (⟨nonneg, below⟩ | ⟨above, negative, missed⟩)
      · have above : -2 ^ a.width ≤ a.total (k + 1) := by omega
        exact ⟨⟨above, below⟩, (stops_agree_iff fits narrow above below).mpr (.inl nonneg)⟩
      · have below : a.total (k + 1) < 2 ^ a.width := by omega
        exact ⟨⟨above, below⟩, (stops_agree_iff fits narrow above below).mpr (.inr missed)⟩
  · refine iff_of_true ?_ (.inl whole)
    rw [Arguments.value, Arguments.value, whole]
    exact ⟨Iff.rfl, fun _ _ => Iff.rfl⟩

include fits in
private theorem first_steps (n : ℕ) :
    (∀ k ≤ n, a.Shows (inner a k) k) ↔ ∀ k ≤ n, a.Covered k := by
  induction n with
  | zero =>
    obtain ⟨shows_start, covered_start⟩ := shows_zero fits
    constructor <;> intro _ k first <;> obtain rfl : k = 0 := by omega
    · exact covered_start
    · exact shows_start
  | succ n ih =>
    constructor
    · intro right k before
      have covered := ih.mp fun j earlier => right j (by omega)
      rcases Nat.lt_or_eq_of_le before with earlier | rfl
      · exact covered k (by omega)
      · exact (shows_iff_covered fits (covered n le_rfl)).mp (right _ le_rfl)
    · intro covered k before
      have right := ih.mpr fun j earlier => covered j (by omega)
      rcases Nat.lt_or_eq_of_le before with earlier | rfl
      · exact right k (by omega)
      · exact (shows_iff_covered fits (covered n (by omega))).mpr (covered _ le_rfl)

private theorem steps_reached (w : ℕ → Control) {t k : ℕ} (before : k ≤ a.steps w t) :
    ∃ u ≤ t, a.steps w u = k := by
  induction t with
  | zero =>
    have zero : a.steps w 0 = 0 := rfl
    exact ⟨0, le_rfl, by omega⟩
  | succ t ih =>
    rcases Nat.lt_or_eq_of_le before with less | same
    · have earlier : k ≤ a.steps w t := by
        rw [Arguments.steps] at less
        split_ifs at less <;> omega
      obtain ⟨u, until_t, is⟩ := ih earlier
      exact ⟨u, by omega, is⟩
    · exact ⟨t + 1, le_rfl, same.symm⟩

include fits in
private theorem covered_reached {w : ℕ → Control} {n : ℕ}
    (covered : ∀ t < n, a.stepped w t = true → a.Covered (a.steps w t + 1)) {t : ℕ} (before : t ≤ n) :
    ∀ k ≤ a.steps w t, a.Covered k := by
  induction t with
  | zero =>
    intro k first
    obtain rfl : k = 0 := Nat.le_zero.mp first
    exact (shows_zero fits).2
  | succ t ih =>
    have earlier := ih (by omega)
    intro k reached
    rw [Arguments.steps] at reached
    split_ifs at reached with reset stepped
    · obtain rfl : k = 0 := Nat.le_zero.mp reached
      exact (shows_zero fits).2
    · rcases Nat.lt_or_eq_of_le reached with less | rfl
      · exact earlier k (by omega)
      · exact covered t (by omega) stepped
    · exact earlier k reached

/-- The registers show a counter of the width of the module in every state of a run exactly if
every step of the run stays in the range in which the inner counter has no bits of its own. -/
theorem registers_show_iff (fits : a.Fits) (w : ℕ → Control) (n : ℕ) :
    (∀ t ≤ n, a.Shows (a.counter w t) (a.steps w t)) ↔
      ∀ t < n, a.stepped w t = true → a.Covered (a.steps w t + 1) := by
  constructor
  · intro shown t before stepped
    have next : a.steps w (t + 1) = a.steps w t + 1 := by
      have running : (w t).reset = false := by
        rw [Arguments.stepped, Bool.and_eq_true, Bool.not_eq_true'] at stepped
        exact stepped.1
      rw [Arguments.steps, running, if_neg Bool.false_ne_true, if_pos stepped]
    refine (first_steps fits (a.steps w t + 1)).mp ?_ _ le_rfl
    intro k reached
    rw [← next] at reached
    obtain ⟨u, until_next, is⟩ := steps_reached w reached
    have right := shown u (by omega)
    rwa [counter_eq, is] at right
  · intro covered t before
    rw [counter_eq]
    exact (first_steps fits _).mpr (covered_reached fits covered before) _ le_rfl

def byteCounter (start : ℕ) : Arguments := { width := 8, defaultStart := start }

private theorem byte_counter_fits {start : ℕ} (byte : start < 2 ^ 8) :
    (byteCounter start).Fits := by
  refine ⟨?_, byte, ?_, ?_⟩
  · show 1 ≤ 8 ∧ 8 ≤ 32
    decide
  · show 1 < 2 ^ 8
    decide
  · intro stop none
    cases none

theorem registers_show_byte :
    (∀ t ≤ 5, (byteCounter 253).Shows ((byteCounter 253).counter (fun t => ⟨true, t = 2⟩) t)
        ((byteCounter 253).steps (fun t => ⟨true, t = 2⟩) t)) ↔
      ∀ t < 5, (byteCounter 253).stepped (fun t => ⟨true, t = 2⟩) t = true →
        (byteCounter 253).Covered ((byteCounter 253).steps (fun t => ⟨true, t = 2⟩) t + 1) :=
  registers_show_iff (byte_counter_fits (by decide)) _ 5

/-- The step of a byte from its last value to zero sets no carry. -/
theorem registers_show_counterexample :
    (byteCounter 255).Fits ∧
      ¬ (byteCounter 255).Shows ((byteCounter 255).counter (fun _ => ⟨true, false⟩) 1)
        ((byteCounter 255).steps (fun _ => ⟨true, false⟩) 1) := by
  refine ⟨byte_counter_fits (by decide), ?_⟩
  intro right
  have wraps : Wraps 8 .up ((byteCounter 255).value 0) 1 := by
    show 2 ^ 8 ≤ _ + 1
    decide
  exact absurd (right.carry.mpr ⟨0, by decide, wraps⟩) (by decide)

end Pypga.Modules.Counter
