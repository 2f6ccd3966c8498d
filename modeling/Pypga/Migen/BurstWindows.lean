/- GID: Pypga/Migen/BurstWindows
   generality: G
   digest: The labels of a burst while the period and the number of pulses change at will. -/

import Pypga.Migen.BurstDecomposition
import Mathlib.Tactic.SplitIfs

set_option autoImplicit false
set_option relaxedAutoImplicit false

namespace Pypga.Migen.BurstWindows

open Pypga.Foundation.ClockedMachine (run run_succ run_invariant)
open Pypga.Foundation.FixedWidth (trunc trunc_lt trunc_pred)
open Pypga.Foundation.Waveform (times times_sorted times_succ)
open Pypga.Migen.Operands (getLength getResetValue)
open Pypga.Migen.PulseGenerators
open Pypga.Migen.PulseBursts (wait wait_countdown)
open Pypga.Migen.BurstDecomposition (accepted countdown labels)

variable {c : BurstConfig}

structure Bounded (c : BurstConfig) (s : BurstGen) : Prop where
  enabled : s.busy = true → s.pulsegenOn = true
  count : s.count < 2 ^ getLength c.pulses
  inner : s.pulsegen.count < 2 ^ getLength c.period

private theorem pulsegen_next_bounded (g : PulseGenConfig) (period : ℤ) (on : Bool) (s : PulseGen) :
    (g.next period on s).count < 2 ^ getLength g.period := by
  unfold PulseGenConfig.next
  dsimp only
  split
  · exact trunc_lt _ _
  · split
    · exact trunc_lt _ _
    · exact Nat.mod_lt _ (Nat.two_pow_pos _)

theorem next_pulsegen (i : BurstInput) (s : BurstGen) :
    (c.next i s).pulsegen = c.pulsegen.next i.period s.pulsegenOn s.pulsegen := by
  simp only [BurstConfig.next]
  split_ifs <;> rfl

private theorem bounded_next (i : BurstInput) {s : BurstGen} (bounded : Bounded c s) :
    Bounded c (c.next i s) := by
  constructor
  · simp only [BurstConfig.next]
    split_ifs <;> simp_all
  · have zero : (0 : ℕ) < 2 ^ getLength c.pulses := Nat.two_pow_pos _
    have count := bounded.count
    simp only [BurstConfig.next]
    split_ifs <;> first | exact zero | exact count | exact trunc_lt _ _
  · rw [next_pulsegen]
    exact pulsegen_next_bounded c.pulsegen i.period s.pulsegenOn s.pulsegen

theorem create_eq {s : BurstGen} (created : c.create = .ok s) :
    ∃ value, s = ⟨c.pulsegen.powerUp value, false, false, 0, false⟩ := by
  cases reset : getResetValue c.period with
  | none => simp [BurstConfig.create, PulseGenConfig.create, BurstConfig.pulsegen, reset, Except.map]
    at created
  | some value =>
    by_cases negative : value < 0
    · simp [BurstConfig.create, PulseGenConfig.create, BurstConfig.pulsegen, reset, negative,
        Except.map] at created
    · simp only [BurstConfig.create, PulseGenConfig.create, BurstConfig.pulsegen, reset, negative,
        Except.map, if_false, Except.ok.injEq] at created
      exact ⟨value, created.symm⟩

theorem bounded_create {s : BurstGen} (created : c.create = .ok s) : Bounded c s := by
  obtain ⟨value, rfl⟩ := create_eq created
  exact ⟨fun busy => (by cases busy), Nat.two_pow_pos _, trunc_lt _ _⟩

theorem bounded_run (w : ℕ → BurstInput) {s : BurstGen} (bounded : Bounded c s) (k : ℕ) :
    Bounded c (run c.next s w k) :=
  run_invariant (fun _ => Bounded c) bounded (fun n _ before => bounded_next (w n) before) k

section Step

variable {i : BurstInput} {s : BurstGen}

theorem next_accepted (clear : i.reset = false) (trigger : i.trigger = true)
    (free : s.busy = false ∨ s.busy = true ∧ s.pulsegen.out = true ∧ s.count = 0) :
    (c.next i s).busy = true ∧ (c.next i s).out = true ∧
      (c.next i s).count = trunc (getLength c.pulses) i.pulses := by
  rcases free with idle | ⟨busy, pulse, last⟩
  · simp [BurstConfig.next, clear, trigger, idle]
  · simp [BurstConfig.next, clear, trigger, busy, pulse, last]

theorem next_idle (idle : s.busy = false) (quiet : i.trigger = false) :
    (c.next i s).busy = false := by
  cases reset : i.reset <;> simp [BurstConfig.next, reset, idle, quiet]

theorem next_hold (clear : i.reset = false) (busy : s.busy = true)
    (quiet : s.pulsegen.out = false) :
    (c.next i s).busy = true ∧ (c.next i s).out = false ∧ (c.next i s).count = s.count := by
  simp [BurstConfig.next, clear, busy, quiet]

theorem next_tick (bounded : Bounded c s) (clear : i.reset = false) (busy : s.busy = true)
    (pulse : s.pulsegen.out = true) (left : s.count ≠ 0) :
    (c.next i s).busy = true ∧ (c.next i s).out = true ∧ (c.next i s).count = s.count - 1 := by
  have count := trunc_pred (Nat.pos_of_ne_zero left) bounded.count
  simp [BurstConfig.next, clear, busy, pulse, left, count]

theorem count_lt_next {n : ℕ} (clear : i.reset = false) (bounded : Bounded c s)
    (loads : i.trigger = true →
      (s.busy = false ∨ s.busy = true ∧ s.pulsegen.out = true ∧ s.count = 0) →
        trunc (getLength c.pulses) i.pulses < n)
    (before : s.busy = true → s.count < n) (active : (c.next i s).busy = true) :
    (c.next i s).count < n := by
  cases busy : s.busy with
  | false =>
    cases trigger : i.trigger with
    | false =>
      rw [next_idle busy trigger] at active
      cases active
    | true =>
      rw [(next_accepted clear trigger (.inl busy)).2.2]
      exact loads trigger (.inl busy)
  | true =>
    cases pulse : s.pulsegen.out with
    | false =>
      rw [(next_hold (c := c) clear busy pulse).2.2]
      exact before busy
    | true =>
      by_cases last : s.count = 0
      · cases trigger : i.trigger with
        | false =>
          simp [BurstConfig.next, clear, busy, pulse, last, trigger] at active
        | true =>
          rw [(next_accepted clear trigger (.inr ⟨busy, pulse, last⟩)).2.2]
          exact loads trigger (.inr ⟨busy, pulse, last⟩)
      · rw [(next_tick bounded clear busy pulse last).2.2]
        have here := before busy
        omega

theorem next_out_busy (clear : i.reset = false) (pulse : (c.next i s).out = true) :
    (c.next i s).busy = true := by
  simp only [BurstConfig.next, clear, Bool.false_eq_true, if_false] at pulse ⊢
  split_ifs at pulse ⊢ <;> simp_all

private theorem wait_next (bounded : Bounded c s) (busy : s.busy = true)
    (quiet : s.pulsegen.out = false) :
    wait (c.next i s).pulsegen + 1 = wait s.pulsegen := by
  rw [next_pulsegen, bounded.enabled busy]
  cases carry : s.pulsegen.carry with
  | true => simp [PulseGenConfig.next, carry, wait, quiet]
  | false =>
    rw [pulsegen_countdown c.pulsegen i.period s.pulsegen carry bounded.inner]
    exact wait_countdown quiet carry _

end Step

/-- The cycles `t < u ≤ e` of a burst: its trigger is accepted in cycle `t`, and in cycle `e`
the inner generator pulses with a count of zero for the first time. -/
structure Window (r : ℕ → BurstGen) (trigger : ℕ → Bool) (t e : ℕ) : Prop where
  accepted : accepted r trigger (fun _ => false) t
  after : t < e
  ending : (r e).pulsegen.out = true ∧ (r e).count = 0
  first : ∀ u, t < u → u < e → ¬ ((r u).pulsegen.out = true ∧ (r u).count = 0)

private theorem countdown_eq_cons (n : ℕ) : countdown n = n :: (countdown n).tail := by
  cases n <;> rfl

theorem countdown_length (n : ℕ) : (countdown n).length = n + 1 := by
  induction n with
  | zero => rfl
  | succ n ih => exact congrArg Nat.succ ih

theorem mem_countdown {n k : ℕ} : k ∈ countdown n ↔ k ≤ n := by
  induction n with
  | zero => rw [countdown, List.mem_singleton, Nat.le_zero]
  | succ n ih =>
    rw [countdown, List.mem_cons, ih]
    omega

private theorem countdown_sorted (n : ℕ) : (countdown n).Pairwise (· > ·) := by
  induction n with
  | zero => exact List.pairwise_singleton _ 0
  | succ n ih =>
    refine List.pairwise_cons.mpr ⟨?_, ih⟩
    intro k member
    exact Nat.lt_succ_of_le (mem_countdown.mp member)

theorem countdown_nodup (n : ℕ) : (countdown n).Nodup := (countdown_sorted n).imp ne_of_gt

theorem label_lt_of_lt {r : ℕ → BurstGen} {lo hi n : ℕ} (all : labels r lo hi = countdown n) {u v : ℕ}
    (first : u ∈ times (fun k => (r k).out) lo (hi + 1))
    (second : v ∈ times (fun k => (r k).out) lo (hi + 1)) (later : u < v) :
    (r v).count < (r u).count := by
  have sorted := countdown_sorted n
  rw [← all, labels, List.pairwise_map] at sorted
  obtain ⟨i, below, rfl⟩ := List.getElem_of_mem first
  obtain ⟨j, within, rfl⟩ := List.getElem_of_mem second
  have order : i < j := by
    by_contra backwards
    rcases Nat.lt_or_eq_of_le (Nat.le_of_not_lt backwards) with less | rfl
    · have wrong := List.pairwise_iff_getElem.mp (times_sorted _ lo (hi + 1)) j i within below less
      omega
    · exact absurd later (lt_irrefl _)
  exact List.pairwise_iff_getElem.mp sorted i j below within order

private theorem labels_succ (r : ℕ → BurstGen) {lo hi : ℕ} (after : lo ≤ hi + 1) :
    labels r lo (hi + 1) =
      labels r lo hi ++ if (r (hi + 1)).out then [(r (hi + 1)).count] else [] := by
  rw [labels, times_succ after, List.map_append]
  split <;> rfl

section Run

variable {w : ℕ → BurstInput} {s : BurstGen} (clear : ∀ k, (w k).reset = false)
include clear

private theorem loaded {t : ℕ}
    (taken : accepted (run c.next s w) (fun k => (w k).trigger) (fun _ => false) t) :
    (run c.next s w (t + 1)).busy = true ∧ (run c.next s w (t + 1)).out = true ∧
      (run c.next s w (t + 1)).count = trunc (getLength c.pulses) (w t).pulses := by
  obtain ⟨trigger, -, free⟩ := taken
  rw [run_succ]
  exact next_accepted (clear t) trigger free

variable (bounded : Bounded c s)
include bounded

private theorem counted {t e : ℕ} (window : Window (run c.next s w) (fun k => (w k).trigger) t e)
    (n : ℕ) (inside : t + 1 + n ≤ e) :
    (run c.next s w (t + 1 + n)).busy = true ∧
      labels (run c.next s w) (t + 1) (t + 1 + n) ++
          (countdown (run c.next s w (t + 1 + n)).count).tail =
        countdown (trunc (getLength c.pulses) (w t).pulses) := by
  -- the labels so far, and those below the count, are the labels of the burst
  induction n with
  | zero =>
    obtain ⟨busy, out, count⟩ := loaded clear window.accepted
    refine ⟨busy, ?_⟩
    have single : labels (run c.next s w) (t + 1) (t + 1) = [(run c.next s w (t + 1)).count] := by
      rw [labels_succ _ le_rfl, out]
      simp [labels, times]
    rw [Nat.add_zero, single, count]
    exact (countdown_eq_cons _).symm
  | succ n ih =>
    obtain ⟨busy, sum⟩ := ih (by omega)
    have more := labels_succ (run c.next s w) (show t + 1 ≤ t + 1 + n + 1 by omega)
    rw [← Nat.add_assoc, more, run_succ]
    cases pulse : (run c.next s w (t + 1 + n)).pulsegen.out with
    | false =>
      obtain ⟨still, quiet, same⟩ := next_hold (c := c) (clear (t + 1 + n)) busy pulse
      rw [quiet, same]
      refine ⟨still, ?_⟩
      simpa using sum
    | true =>
      have left : (run c.next s w (t + 1 + n)).count ≠ 0 := fun zero =>
        window.first (t + 1 + n) (by omega) (by omega) ⟨pulse, zero⟩
      obtain ⟨still, out, less⟩ :=
        next_tick (bounded_run w bounded (t + 1 + n)) (clear (t + 1 + n)) busy pulse left
      obtain ⟨m, is⟩ := Nat.exists_eq_succ_of_ne_zero left
      rw [is] at sum
      rw [out, less, if_pos rfl, is, Nat.succ_sub_one, List.append_assoc]
      refine ⟨still, ?_⟩
      rw [List.singleton_append, ← countdown_eq_cons]
      exact sum

theorem window_labels {t e : ℕ}
    (window : Window (run c.next s w) (fun k => (w k).trigger) t e) :
    labels (run c.next s w) (t + 1) e =
      countdown (trunc (getLength c.pulses) (w t).pulses) := by
  obtain ⟨n, rfl⟩ := Nat.exists_eq_add_of_le (Nat.succ_le_of_lt window.after)
  have all := (counted clear bounded window n le_rfl).2
  have zero : (run c.next s w (t + 1 + n)).count = 0 := window.ending.2
  rw [zero] at all
  exact (List.append_nil _).symm.trans all

private def left (c : BurstConfig) (s : BurstGen) : ℕ :=
  s.count * (2 ^ getLength c.period + 3) + wait s.pulsegen

omit bounded clear in
private theorem wait_le {g : BurstGen} (within : Bounded c g) :
    wait g.pulsegen ≤ 2 ^ getLength c.period + 1 := by
  have inner := within.inner
  unfold wait
  split
  · exact Nat.zero_le _
  · split <;> omega

private theorem ends (k : ℕ) (busy : (run c.next s w k).busy = true) :
    ∃ e, k ≤ e ∧ ((run c.next s w e).pulsegen.out = true ∧ (run c.next s w e).count = 0) ∧
      ∀ u, k ≤ u → u < e →
        ¬ ((run c.next s w u).pulsegen.out = true ∧ (run c.next s w u).count = 0) := by
  induction size : left c (run c.next s w k) using Nat.strongRecOn generalizing k with
  | ind n ih =>
    by_cases last : (run c.next s w k).pulsegen.out = true ∧ (run c.next s w k).count = 0
    · exact ⟨k, le_rfl, last, fun u after before => absurd before (by omega)⟩
    · have here := bounded_run w bounded k
      have next := bounded_run w bounded (k + 1)
      have short := wait_le next
      have goes : (run c.next s w (k + 1)).busy = true ∧
          left c (run c.next s w (k + 1)) < left c (run c.next s w k) := by
        unfold left
        rw [run_succ] at short ⊢
        cases pulse : (run c.next s w k).pulsegen.out with
        | false =>
          obtain ⟨still, -, same⟩ := next_hold (c := c) (clear k) busy pulse
          have nearer := wait_next (i := w k) here busy pulse
          rw [same]
          exact ⟨still, by omega⟩
        | true =>
          have some_left : (run c.next s w k).count ≠ 0 := fun zero => last ⟨pulse, zero⟩
          obtain ⟨still, -, less⟩ := next_tick here (clear k) busy pulse some_left
          obtain ⟨m, is⟩ := Nat.exists_eq_succ_of_ne_zero some_left
          rw [less, is, Nat.succ_sub_one, Nat.succ_mul]
          exact ⟨still, by omega⟩
      obtain ⟨e, after, ending, first⟩ := ih _ (size ▸ goes.2) (k + 1) goes.1 rfl
      refine ⟨e, by omega, ending, ?_⟩
      intro u later before
      rcases Nat.eq_or_lt_of_le later with rfl | more
      · exact last
      · exact first u more before

/-- Every accepted trigger starts a burst that ends, whatever the period does. -/
theorem window_exists {t : ℕ}
    (taken : accepted (run c.next s w) (fun k => (w k).trigger) (fun _ => false) t) :
    ∃ e, Window (run c.next s w) (fun k => (w k).trigger) t e := by
  obtain ⟨busy, -, -⟩ := loaded clear taken
  obtain ⟨e, after, ending, first⟩ := ends clear bounded (t + 1) busy
  exact ⟨e, taken, after, ending, fun u later before => first u later before⟩

end Run

end Pypga.Migen.BurstWindows
