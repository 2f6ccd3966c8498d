/- GID: Pypga/Migen/BurstDecomposition
   generality: G
   digest: Every run of the burst generator is a sequence of labelled bursts, and pulses inside one are evenly spaced. -/

import Pypga.Migen.PulseBursts

set_option autoImplicit false
set_option relaxedAutoImplicit false

namespace Pypga.Migen.BurstDecomposition

open Pypga.Foundation.Waveform (times times_split times_eq_singleton)
open Pypga.Migen.Operands (Steady)
open Pypga.Migen.PulseGenerators
open Pypga.Migen.PulseBursts

/-- A trigger that starts a burst: from idle, or in place of the burst that just ends. -/
def accepted (r : ℕ → BurstGen) (trigger reset : ℕ → Bool) (t : ℕ) : Prop :=
  trigger t = true ∧ reset t = false ∧
    ((r t).busy = false ∨
      (r t).busy = true ∧ (r t).pulsegen.out = true ∧ (r t).count = 0)

/-- The labels of the pulses in the cycles `lo ≤ u ≤ hi`, in temporal order. -/
def labels (r : ℕ → BurstGen) (lo hi : ℕ) : List ℕ :=
  (times (fun u => (r u).out) lo (hi + 1)).map fun u => (r u).count

/-- `n, n - 1, …, 0`. -/
def countdown : ℕ → List ℕ
  | 0 => [0]
  | n + 1 => (n + 1) :: countdown n

/-- The cycles `k, …, e` from a pulse labelled `c` to the end of its burst. -/
structure BurstTail (r : ℕ → BurstGen) (trigger reset : ℕ → Bool) (c k e : ℕ) : Prop where
  le : k ≤ e
  busy : ∀ u, k ≤ u → u ≤ e → (r u).busy = true
  ignored : ∀ u, k ≤ u → u < e → ¬ accepted r trigger reset u
  undisturbed : ∀ u, k ≤ u → u < e → reset u = false
  ending : (reset e = true ∧ (r (e + 1)).busy = false ∧ labels r k e <+: countdown c) ∨
    (reset e = false ∧ (r e).pulsegen.out = true ∧ (r e).count = 0 ∧
      (r (e + 1)).busy = trigger e ∧ labels r k e = countdown c)

/-- The burst of the trigger accepted in cycle `t`; `e` is the last cycle before the end. -/
structure Burst (r : ℕ → BurstGen) (trigger reset : ℕ → Bool) (n t e : ℕ) : Prop where
  accepted : accepted r trigger reset t
  first : (r (t + 1)).out = true ∧ (r (t + 1)).count = n
  tail : BurstTail r trigger reset n (t + 1) e

variable {period pulses : Steady}

private theorem edge_ignored (reset : Bool) (s : BurstGen)
    (refused : ¬ (reset = false ∧ (s.busy = false ∨
      s.busy = true ∧ s.pulsegen.out = true ∧ s.count = 0))) :
    edge period pulses true reset s = edge period pulses false reset s := by
  cases reset with
  | true => rw [edge_reset, edge_reset]
  | false =>
    cases busy : s.busy with
    | false => simp [busy] at refused
    | true =>
      cases pulse : s.pulsegen.out with
      | false => rw [edge_hold _ busy pulse, edge_hold _ busy pulse]
      | true =>
        have left : s.count ≠ 0 := by
          intro last
          exact refused ⟨rfl, .inr ⟨busy, pulse, last⟩⟩
        simp [edge, BurstConfig.next, busy, pulse, left]

private theorem labels_stretch {r : ℕ → BurstGen} {reset : ℕ → Bool} {k m : ℕ}
    (stretch : Stretch r reset k m) (pulse : (r k).out = true) :
    labels r k m = [(r k).count] := by
  have le := stretch.le
  have single : times (fun u => (r u).out) k (m + 1) = [k] :=
    times_eq_singleton le_rfl (by omega) pulse fun u after before other =>
      stretch.quiet u (by omega) (by omega)
  simp [labels, single]

private theorem labels_cons {r : ℕ → BurstGen} {reset : ℕ → Bool} {k m e : ℕ}
    (stretch : Stretch r reset k m) (pulse : (r k).out = true) (later : m < e) :
    labels r k e = (r k).count :: labels r (m + 1) e := by
  have le := stretch.le
  have head := labels_stretch stretch pulse
  rw [labels] at head ⊢
  rw [times_split (m + 1) (by omega) (by omega), List.map_append, head]
  rfl

private theorem prefix_countdown (c : ℕ) : [c] <+: countdown c := by
  cases c with
  | zero => exact List.prefix_rfl
  | succ c => exact ⟨countdown c, rfl⟩

section Tail

variable {r : ℕ → BurstGen} {trigger reset : ℕ → Bool} {k m : ℕ} (stretch : Stretch r reset k m)
include stretch

private theorem ignored_waiting (u : ℕ) (after : k ≤ u) (before : u < m) :
    ¬ accepted r trigger reset u := by
  rintro ⟨-, -, idle | ⟨-, inner, -⟩⟩
  · rw [(stretch.busy u after before.le).1] at idle
    cases idle
  · rw [(stretch.waiting u after before).2] at inner
    cases inner

private theorem ignored_counting (left : (r k).count ≠ 0) (u : ℕ) (after : k ≤ u) (before : u ≤ m) :
    ¬ accepted r trigger reset u := by
  rintro ⟨-, -, idle | ⟨-, -, last⟩⟩
  · rw [(stretch.busy u after before).1] at idle
    cases idle
  · rw [(stretch.busy u after before).2] at last
    exact left last

variable (pulse : (r k).out = true)
include pulse

private theorem BurstTail.interrupted (stop : reset m = true) (idle : (r (m + 1)).busy = false) :
    BurstTail r trigger reset (r k).count k m := by
  refine ⟨stretch.le, fun u after before => (stretch.busy u after before).1,
    ignored_waiting stretch, fun u after before => (stretch.waiting u after before).1,
    .inl ⟨stop, idle, ?_⟩⟩
  rw [labels_stretch stretch pulse]
  exact prefix_countdown _

theorem BurstTail.last (label : (r k).count = 0) (clear : reset m = false)
    (inner : (r m).pulsegen.out = true) (follows : (r (m + 1)).busy = trigger m) :
    BurstTail r trigger reset 0 k m := by
  refine ⟨stretch.le, fun u after before => (stretch.busy u after before).1,
    ignored_waiting stretch, fun u after before => (stretch.waiting u after before).1,
    .inr ⟨clear, inner, ?_, follows, ?_⟩⟩
  · rw [(stretch.busy m stretch.le le_rfl).2, label]
  · rw [labels_stretch stretch pulse, label]
    rfl

theorem BurstTail.cons {c e : ℕ} (label : (r k).count = c + 1) (clear : reset m = false)
    (tail : BurstTail r trigger reset c (m + 1) e) : BurstTail r trigger reset (c + 1) k e := by
  have first := stretch.le
  have later := tail.le
  have all := labels_cons stretch pulse (show m < e by omega)
  rw [label] at all
  refine ⟨by omega, ?_, ?_, ?_, ?_⟩
  · intro u after before
    by_cases here : u ≤ m
    · exact (stretch.busy u after here).1
    · exact tail.busy u (by omega) before
  · intro u after before
    by_cases here : u ≤ m
    · exact ignored_counting stretch (by omega) u after here
    · exact tail.ignored u (by omega) before
  · intro u after before
    rcases Nat.lt_trichotomy u m with here | rfl | beyond
    · exact (stretch.waiting u after here).1
    · exact clear
    · exact tail.undisturbed u (by omega) before
  · rcases tail.ending with ⟨stop, idle, some⟩ | ⟨stop, last, zero, after, every⟩
    · refine .inl ⟨stop, idle, ?_⟩
      rw [all]
      exact (List.prefix_cons_inj (c + 1)).mpr some
    · refine .inr ⟨stop, last, zero, after, ?_⟩
      rw [all, every]
      rfl

end Tail

section Positive

variable (positive : 1 ≤ period.value) (trigger reset : ℕ → Bool)
include positive

private theorem interrupted_or_inner (k : ℕ)
    (busy : (history period pulses trigger reset k).busy = true)
    (pulse : (history period pulses trigger reset k).out = true) :
    ∃ m, Stretch (history period pulses trigger reset) reset k m ∧
      (history period pulses trigger reset m).busy = true ∧
      (history period pulses trigger reset m).count = (history period pulses trigger reset k).count ∧
      (BurstTail (history period pulses trigger reset) trigger reset
          (history period pulses trigger reset k).count k m ∨
        reset m = false ∧ (history period pulses trigger reset m).pulsegen.out = true) := by
  obtain ⟨m, stretch, ending⟩ := stretch_exists pulses positive trigger reset k busy
  have next := history_succ period pulses trigger reset m
  obtain ⟨up, count⟩ := stretch.busy m stretch.le le_rfl
  refine ⟨m, stretch, up, count, ?_⟩
  rcases ending with stop | ⟨clear, inner, -⟩
  · exact .inl (.interrupted stretch pulse stop (by rw [next, stop, edge_reset]))
  · exact .inr ⟨clear, inner⟩

private theorem burst_tail_exists (c : ℕ) : ∀ k : ℕ,
    (history period pulses trigger reset k).busy = true →
    (history period pulses trigger reset k).out = true →
    (history period pulses trigger reset k).count = c →
    ∃ e, BurstTail (history period pulses trigger reset) trigger reset c k e := by
  -- induction on the label; each step is one stretch of waiting and one inner pulse
  induction c with
  | zero =>
    intro k busy pulse label
    obtain ⟨m, stretch, up, count, stopped | ⟨clear, inner⟩⟩ :=
      interrupted_or_inner positive trigger reset k busy pulse
    · exact ⟨m, label ▸ stopped⟩
    · have next := history_succ period pulses trigger reset m
      refine ⟨m, .last stretch pulse label clear inner ?_⟩
      rw [next, clear, edge_last _ up inner (count.trans label)]
  | succ c ih =>
    intro k busy pulse label
    obtain ⟨m, stretch, up, count, stopped | ⟨clear, inner⟩⟩ :=
      interrupted_or_inner positive trigger reset k busy pulse
    · exact ⟨m, label ▸ stopped⟩
    · have next := history_succ period pulses trigger reset m
      have left : (history period pulses trigger reset m).count = c + 1 := count.trans label
      have sound := sound_history pulses positive trigger reset m
      rw [clear, edge_tick _ up inner (by omega) sound.count_le, left] at next
      obtain ⟨e, tail⟩ := ih (m + 1) (by rw [next]) (by rw [next]) (by rw [next]; rfl)
      exact ⟨e, .cons stretch pulse label clear tail⟩

variable (pulses) in
private theorem burst_exists (t : ℕ)
    (taken : accepted (history period pulses trigger reset) trigger reset t) :
    ∃ e, Burst (history period pulses trigger reset) trigger reset pulses.value t e := by
  have next := history_succ period pulses trigger reset t
  obtain ⟨high, clear, free⟩ := taken
  have started : (history period pulses trigger reset (t + 1)).busy = true ∧
      (history period pulses trigger reset (t + 1)).out = true ∧
      (history period pulses trigger reset (t + 1)).count = pulses.value := by
    rcases free with idle | ⟨busy, inner, last⟩
    · rw [next, high, clear, edge_start idle]
      exact ⟨rfl, rfl, rfl⟩
    · rw [next, high, clear, edge_last true busy inner last]
      exact ⟨rfl, rfl, rfl⟩
  obtain ⟨busy, pulse, label⟩ := started
  obtain ⟨e, tail⟩ := burst_tail_exists positive trigger reset pulses.value (t + 1) busy pulse label
  exact ⟨e, ⟨high, clear, free⟩, ⟨pulse, label⟩, tail⟩

private theorem busy_in_burst (u : ℕ) (busy : (history period pulses trigger reset u).busy = true) :
    ∃ t e, Burst (history period pulses trigger reset) trigger reset pulses.value t e ∧
      t < u ∧ u ≤ e := by
  induction u with
  | zero => cases busy
  | succ u ih =>
    have next := history_succ period pulses trigger reset u
    have begins (taken : accepted (history period pulses trigger reset) trigger reset u) :
        ∃ t e, Burst (history period pulses trigger reset) trigger reset pulses.value t e ∧
          t < u + 1 ∧ u + 1 ≤ e := by
      obtain ⟨e, burst⟩ := burst_exists pulses positive trigger reset u taken
      exact ⟨u, e, burst, Nat.lt_succ_self u, burst.tail.le⟩
    cases before : (history period pulses trigger reset u).busy with
    | false =>
      cases stop : reset u with
      | true =>
        rw [next, stop, edge_reset] at busy
        cases busy
      | false =>
        cases high : trigger u with
        | false =>
          rw [next, stop, high, edge_idle before] at busy
          cases busy
        | true => exact begins ⟨high, stop, .inl before⟩
    | true =>
      obtain ⟨t, e, burst, started, inside⟩ := ih before
      by_cases more : u + 1 ≤ e
      · exact ⟨t, e, burst, by omega, more⟩
      · obtain rfl : e = u := by omega
        rcases burst.tail.ending with ⟨-, idle, -⟩ | ⟨clear, inner, last, same, -⟩
        · rw [idle] at busy
          cases busy
        · have high : trigger e = true := by rw [← same, busy]
          exact begins ⟨high, clear, .inr ⟨before, inner, last⟩⟩

end Positive

/-- The run from power-up decomposes into bursts: one per accepted trigger, labelled
`n, …, 0` unless reset, nothing outside them, and no effect of any other trigger. -/
theorem burst_decomposition (period pulses : Steady) (positive : 1 ≤ period.value)
    (trigger reset : ℕ → Bool) :
    (∀ t, accepted (history period pulses trigger reset) trigger reset t →
      ∃ e, Burst (history period pulses trigger reset) trigger reset pulses.value t e) ∧
    (∀ u, (history period pulses trigger reset u).out = true ∨
        (history period pulses trigger reset u).busy = true →
      ∃ t e, Burst (history period pulses trigger reset) trigger reset pulses.value t e ∧
        t < u ∧ u ≤ e) ∧
    (∀ t, trigger t = true → ¬ accepted (history period pulses trigger reset) trigger reset t →
      history period pulses trigger reset (t + 1) =
        edge period pulses false (reset t) (history period pulses trigger reset t)) := by
  refine ⟨burst_exists pulses positive trigger reset, ?_, ?_⟩
  · rintro u (pulse | busy)
    · have sound := sound_history pulses positive trigger reset u
      exact busy_in_burst positive trigger reset u (sound.pulse_busy pulse)
    · exact busy_in_burst positive trigger reset u busy
  · intro t high refused
    rw [history_succ, high]
    exact edge_ignored (reset t) _ fun free => refused ⟨high, free⟩

theorem burst_decomposition_example :
    ∃ t e, Burst (history (Steady.ofNat 1) (Steady.ofNat 2) (fun k => k == 0) fun _ => false)
      (fun k => k == 0) (fun _ => false) 2 t e ∧ t < 4 ∧ 4 ≤ e :=
  (burst_decomposition (Steady.ofNat 1) (Steady.ofNat 2) (by decide) (fun k => k == 0)
    fun _ => false).2.1 4 (.inr (by decide))

end Pypga.Migen.BurstDecomposition
