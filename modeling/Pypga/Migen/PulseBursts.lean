/- GID: Pypga/Migen/PulseBursts
   generality: G
   digest: Invariant, spacing and decomposition of the bursts of a generator with steady arguments. -/

import Pypga.Foundation.Waveform
import Pypga.Migen.PulseGenerators

set_option autoImplicit false
set_option relaxedAutoImplicit false

namespace Pypga.Migen.PulseBursts

open Pypga.Foundation.ClockedMachine (run)
open Pypga.Foundation.FixedWidth (trunc_of_fits trunc_pred)
open Pypga.Migen.Operands (getLength Steady)
open Pypga.Migen.PulseGenerators

def config (period pulses : Steady) : BurstConfig := ⟨period.operand, pulses.operand⟩

def start (period : Steady) : BurstGen where
  pulsegen := (config period period).pulsegen.powerUp period.value
  pulsegenOn := false
  out := false
  count := 0
  busy := false

example (period pulses : Steady) : (config period pulses).create = .ok (start period) := by
  have natural : ¬ (period.value : ℤ) < 0 := by omega
  simp [config, BurstConfig.create, BurstConfig.pulsegen, PulseGenConfig.create, period.reset,
    natural, start, PulseGenConfig.powerUp, Except.map]

def edge (period pulses : Steady) (trigger reset : Bool) (s : BurstGen) : BurstGen :=
  (config period pulses).next ⟨trigger, reset, pulses.value, period.value⟩ s

def history (period pulses : Steady) (trigger reset : ℕ → Bool) : ℕ → BurstGen :=
  run (fun i : Bool × Bool => edge period pulses i.1 i.2) (start period)
    (fun k => (trigger k, reset k))

theorem history_succ (period pulses : Steady) (trigger reset : ℕ → Bool) (k : ℕ) :
    history period pulses trigger reset (k + 1) =
      edge period pulses (trigger k) (reset k) (history period pulses trigger reset k) := rfl

def inner (period : Steady) (s : BurstGen) : PulseGen :=
  (config period period).pulsegen.next period.value s.pulsegenOn s.pulsegen

def wait (g : PulseGen) : ℕ := if g.out then 0 else if g.carry then 1 else g.count + 2

variable {period pulses : Steady}

theorem edge_reset (trigger : Bool) (s : BurstGen) :
    edge period pulses trigger true s = ⟨inner period s, false, false, 0, false⟩ := by
  simp [edge, BurstConfig.next, inner, config, BurstConfig.pulsegen]

theorem edge_idle {s : BurstGen} (idle : s.busy = false) :
    edge period pulses false false s = ⟨inner period s, false, false, s.count, false⟩ := by
  simp [edge, BurstConfig.next, inner, config, BurstConfig.pulsegen, idle]

theorem edge_start {s : BurstGen} (idle : s.busy = false) :
    edge period pulses true false s = ⟨inner period s, true, true, pulses.value, true⟩ := by
  simp [edge, BurstConfig.next, inner, config, BurstConfig.pulsegen, idle,
    trunc_of_fits pulses.fits]

theorem edge_hold (trigger : Bool) {s : BurstGen} (busy : s.busy = true)
    (quiet : s.pulsegen.out = false) :
    edge period pulses trigger false s = ⟨inner period s, true, false, s.count, true⟩ := by
  simp [edge, BurstConfig.next, inner, config, BurstConfig.pulsegen, busy, quiet]

theorem edge_tick (trigger : Bool) {s : BurstGen} (busy : s.busy = true)
    (pulse : s.pulsegen.out = true) (left : 0 < s.count) (fits : s.count ≤ pulses.value) :
    edge period pulses trigger false s = ⟨inner period s, true, true, s.count - 1, true⟩ := by
  have nonzero : s.count ≠ 0 := by omega
  have wide := pulses.fits
  simp [edge, BurstConfig.next, inner, config, BurstConfig.pulsegen, busy, pulse, nonzero,
    trunc_pred left (lt_of_le_of_lt fits wide)]

theorem edge_last (trigger : Bool) {s : BurstGen} (busy : s.busy = true)
    (pulse : s.pulsegen.out = true) (last : s.count = 0) :
    edge period pulses trigger false s =
      ⟨inner period s, true, trigger, if trigger then pulses.value else 0, trigger⟩ := by
  cases trigger <;>
    simp [edge, BurstConfig.next, inner, config, BurstConfig.pulsegen, busy, pulse, last,
      trunc_of_fits pulses.fits]

/-- What holds in every cycle. `draining` is the first cycle after a burst, in which the
inner generator is still enabled and already counts. -/
structure Sound (p n : ℕ) (s : BurstGen) : Prop where
  count_le : s.count ≤ n
  enabled : s.busy = true → s.pulsegenOn = true
  fresh : s.pulsegen.out = true → s.pulsegen.carry = false ∧ s.pulsegen.count = p
  draining : s.busy = false → s.pulsegenOn = true → s.pulsegen = ⟨false, p - 1, false⟩
  counting : s.pulsegen.carry = false → s.pulsegen.count ≤ p
  pulse_busy : s.out = true → s.busy = true

private theorem inner_off (positive : 1 ≤ period.value) {s : BurstGen}
    (off : s.pulsegenOn = false) :
    inner period s = ⟨false, period.value - 1, false⟩ := by
  have wide := period.fits
  simp [inner, config, BurstConfig.pulsegen, PulseGenConfig.next, off,
    trunc_pred positive wide]

private theorem inner_carry {s : BurstGen} (on : s.pulsegenOn = true)
    (carry : s.pulsegen.carry = true) :
    inner period s = ⟨true, period.value, false⟩ := by
  simp [inner, config, BurstConfig.pulsegen, PulseGenConfig.next, on, carry,
    trunc_of_fits period.fits]

private theorem inner_count {s : BurstGen} (on : s.pulsegenOn = true)
    (quiet : s.pulsegen.carry = false)
    (counting : s.pulsegen.count ≤ period.value) :
    inner period s =
      if s.pulsegen.count = 0 then ⟨false, 2 ^ getLength period.operand - 1, true⟩
      else ⟨false, s.pulsegen.count - 1, false⟩ := by
  rw [inner, on]
  exact pulsegen_countdown _ _ _ quiet (lt_of_le_of_lt counting period.fits)

private theorem wait_eq_zero {g : PulseGen} : wait g = 0 ↔ g.out = true := by
  unfold wait
  split
  · simp_all
  · split <;> simp_all

theorem wait_countdown {g : PulseGen} (quiet : g.out = false) (counting : g.carry = false)
    (reload : ℕ) :
    wait (if g.count = 0 then ⟨false, reload, true⟩ else ⟨false, g.count - 1, false⟩) + 1 =
      wait g := by
  by_cases zero : g.count = 0
  · simp [zero, wait, quiet, counting]
  · simp only [if_neg zero, wait, quiet, counting, Bool.false_eq_true, if_false]
    omega

private theorem wait_hold {s : BurstGen} (sound : Sound period.value pulses.value s)
    (busy : s.busy = true) (quiet : s.pulsegen.out = false) :
    wait (inner period s) + 1 = wait s.pulsegen := by
  have on := sound.enabled busy
  cases carry : s.pulsegen.carry with
  | true => simp [inner_carry on carry, wait, quiet, carry]
  | false =>
    rw [inner_count on carry (sound.counting carry)]
    exact wait_countdown quiet carry _

section Positive

variable (positive : 1 ≤ period.value)
include positive

private theorem inner_sound {s : BurstGen} (sound : Sound period.value pulses.value s) :
    ((inner period s).out = true →
      (inner period s).carry = false ∧ (inner period s).count = period.value) ∧
    ((inner period s).carry = false → (inner period s).count ≤ period.value) := by
  cases on : s.pulsegenOn with
  | false => simp [inner_off positive on]
  | true =>
    cases carry : s.pulsegen.carry with
    | true => simp [inner_carry on carry]
    | false =>
      have counting := sound.counting carry
      rw [inner_count on carry counting]
      split
      · simp
      · simp only [Bool.false_eq_true, false_implies, true_and, forall_const]
        omega

private theorem inner_after_pulse {s : BurstGen} (sound : Sound period.value pulses.value s)
    (busy : s.busy = true) (pulse : s.pulsegen.out = true) :
    inner period s = ⟨false, period.value - 1, false⟩ := by
  obtain ⟨carry, count⟩ := sound.fresh pulse
  rw [inner_count (sound.enabled busy) carry (sound.counting carry), if_neg (by omega), count]

private theorem sound_start (pulses : Steady) : Sound period.value pulses.value (start period) := by
  have wide := period.fits
  have value : (start period).pulsegen = ⟨false, period.value - 1, false⟩ := by
    simp [start, config, BurstConfig.pulsegen, PulseGenConfig.powerUp, trunc_pred positive wide]
  refine ⟨Nat.zero_le _, ?_, ?_, ?_, ?_, ?_⟩
  · simp [start]
  · simp [value]
  · simp [start]
  · simp [value]
  · simp [start]

private theorem sound_edge (trigger reset : Bool) {s : BurstGen}
    (sound : Sound period.value pulses.value s) :
    Sound period.value pulses.value (edge period pulses trigger reset s) := by
  obtain ⟨fresh, counting⟩ := inner_sound positive sound
  cases reset with
  | true =>
    rw [edge_reset]
    exact ⟨Nat.zero_le _, by simp, fresh, by simp, counting, by simp⟩
  | false =>
    cases busy : s.busy with
    | false =>
      cases trigger with
      | false =>
        rw [edge_idle busy]
        exact ⟨sound.count_le, by simp, fresh, by simp, counting, by simp⟩
      | true =>
        rw [edge_start busy]
        exact ⟨le_rfl, by simp, fresh, by simp, counting, by simp⟩
    | true =>
      cases pulse : s.pulsegen.out with
      | false =>
        rw [edge_hold trigger busy pulse]
        exact ⟨sound.count_le, by simp, fresh, by simp, counting, by simp⟩
      | true =>
        by_cases last : s.count = 0
        · rw [edge_last trigger busy pulse last]
          refine ⟨?_, by simp, fresh, fun _ _ => inner_after_pulse positive sound busy pulse,
            counting, by simp⟩
          cases trigger <;> simp
        · rw [edge_tick trigger busy pulse (by omega) sound.count_le]
          have bound := sound.count_le
          exact ⟨by dsimp only; omega, by simp, fresh, by simp, counting, by simp⟩

variable (pulses) in
theorem sound_history (trigger reset : ℕ → Bool) (k : ℕ) :
    Sound period.value pulses.value (history period pulses trigger reset k) := by
  induction k with
  | zero => exact sound_start positive pulses
  | succ k ih =>
    rw [history_succ]
    exact sound_edge positive (trigger k) (reset k) ih

theorem wait_after_pulse {s : BurstGen} (sound : Sound period.value pulses.value s)
    (busy : s.busy = true) (pulse : s.pulsegen.out = true) :
    wait (inner period s) = period.value + 1 := by
  rw [inner_after_pulse positive sound busy pulse]
  simp only [wait, Bool.false_eq_true, if_false]
  omega

/-- A burst that starts while the inner generator is still enabled pulses one cycle early. -/
theorem wait_start {s : BurstGen} (sound : Sound period.value pulses.value s)
    (idle : s.busy = false) :
    wait (inner period s) = if s.pulsegenOn then period.value else period.value + 1 := by
  cases on : s.pulsegenOn with
  | false =>
    rw [inner_off positive on]
    simp only [wait, Bool.false_eq_true, if_false]
    omega
  | true =>
    have drained := sound.draining idle on
    have count : s.pulsegen.count = period.value - 1 := by rw [drained]
    rw [inner_count on (by rw [drained]) (by omega), count]
    by_cases one : period.value - 1 = 0
    · simp only [one, wait, if_true, Bool.false_eq_true, if_false]
      omega
    · simp only [if_neg one, wait, Bool.false_eq_true, if_false, if_true]
      omega

end Positive

/-- From cycle `k` to cycle `m` the generator is busy and waits for its inner pulse. -/
structure Stretch (r : ℕ → BurstGen) (reset : ℕ → Bool) (k m : ℕ) : Prop where
  le : k ≤ m
  waiting : ∀ u, k ≤ u → u < m → reset u = false ∧ (r u).pulsegen.out = false
  busy : ∀ u, k ≤ u → u ≤ m → (r u).busy = true ∧ (r u).count = (r k).count
  quiet : ∀ u, k < u → u ≤ m → (r u).out = false

private theorem Stretch.refl {r : ℕ → BurstGen} (reset : ℕ → Bool) {k : ℕ}
    (busy : (r k).busy = true) :
    Stretch r reset k k where
  le := le_rfl
  waiting u after before := by omega
  busy u after before := by
    obtain rfl : u = k := by omega
    exact ⟨busy, rfl⟩
  quiet u after before := by omega

theorem Stretch.cons {r : ℕ → BurstGen} {reset : ℕ → Bool} {k m : ℕ}
    (clear : reset k = false) (hold : (r k).pulsegen.out = false) (busy : (r k).busy = true)
    (count : (r (k + 1)).count = (r k).count) (low : (r (k + 1)).out = false)
    (tail : Stretch r reset (k + 1) m) : Stretch r reset k m where
  le := by have := tail.le; omega
  waiting u after before := by
    rcases Nat.eq_or_lt_of_le after with rfl | later
    · exact ⟨clear, hold⟩
    · exact tail.waiting u later before
  busy u after before := by
    rcases Nat.eq_or_lt_of_le after with rfl | later
    · exact ⟨busy, rfl⟩
    · obtain ⟨up, same⟩ := tail.busy u later before
      exact ⟨up, same.trans count⟩
  quiet u after before := by
    rcases Nat.eq_or_lt_of_le (Nat.succ_le_of_lt after) with rfl | later
    · exact low
    · exact tail.quiet u later before

variable (pulses) in
/-- A busy generator waits until its inner pulse comes or a reset interrupts it. -/
theorem stretch_exists (positive : 1 ≤ period.value) (trigger reset : ℕ → Bool) (k : ℕ)
    (busy : (history period pulses trigger reset k).busy = true) :
    ∃ m, Stretch (history period pulses trigger reset) reset k m ∧
      (reset m = true ∨ reset m = false ∧
        (history period pulses trigger reset m).pulsegen.out = true ∧
        m = k + wait (history period pulses trigger reset k).pulsegen) := by
  generalize hw : wait (history period pulses trigger reset k).pulsegen = w
  induction w generalizing k with
  | zero =>
    refine ⟨k, .refl reset busy, ?_⟩
    cases stop : reset k with
    | true => exact .inl rfl
    | false => exact .inr ⟨rfl, wait_eq_zero.mp hw, rfl⟩
  | succ w ih =>
    cases stop : reset k with
    | true => exact ⟨k, .refl reset busy, .inl stop⟩
    | false =>
      have sound := sound_history pulses positive trigger reset k
      have hold : (history period pulses trigger reset k).pulsegen.out = false := by
        cases pulse : (history period pulses trigger reset k).pulsegen.out with
        | false => rfl
        | true =>
          have now := wait_eq_zero.mpr pulse
          omega
      have next := history_succ period pulses trigger reset k
      rw [stop, edge_hold (trigger k) busy hold] at next
      have nearer := wait_hold sound busy hold
      obtain ⟨m, stretch, ending⟩ := ih (k + 1) (by rw [next]) (by rw [next]; dsimp only; omega)
      refine ⟨m, .cons stop hold busy (by rw [next]) (by rw [next]) stretch, ?_⟩
      rcases ending with interrupted | ⟨clear, pulse, at_wait⟩
      · exact .inl interrupted
      · exact .inr ⟨clear, pulse, by omega⟩

end Pypga.Migen.PulseBursts
