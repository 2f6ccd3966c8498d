/- GID: Pypga/Foundation/Handshake
   generality: G
   digest: Channels with valid and ready, and when a request of one cycle is served without loss. -/

import Pypga.Foundation.Waveform

set_option autoImplicit false
set_option relaxedAutoImplicit false

namespace Pypga.Foundation.Handshake

open Pypga.Foundation.Waveform

variable {α : Type*}

/-- A channel cycle by cycle: the payload is transferred when both sides agree. -/
structure Channel (α : Type*) where
  valid : ℕ → Bool
  ready : ℕ → Bool
  payload : ℕ → α

def Channel.taken (c : Channel α) (t : ℕ) : Bool := c.valid t && c.ready t

/-- The first cycle after `t` in which the receiver is ready. -/
structure FirstReady (ready : ℕ → Bool) (t u : ℕ) : Prop where
  later : t < u
  high : ready u = true
  stalled : ∀ s, t < s → s < u → ready s = false

def Spaced (request ready : ℕ → Bool) : Prop :=
  ∀ t, request t = true →
    ∃ u, FirstReady ready t u ∧ ∀ next, t < next → request next = true → u < next

def Stable (request : ℕ → Bool) (payload : ℕ → α) : Prop :=
  ∀ t s, request t = true → t ≤ s → (∀ next, t < next → next ≤ s → request next = false) →
    payload s = payload t

/-- A request is held until it is taken, it is taken once, and the payloads are taken in the
order of their requests. -/
structure Lossless (request : ℕ → Bool) (c : Channel α) : Prop where
  held : ∀ t u, request t = true → FirstReady c.ready t u →
    ∀ s, t < s → s ≤ u → c.valid s = true ∧ c.payload s = c.payload t
  once : ∀ t, request t = true →
    ∃! s, t < s ∧ (∀ next, t < next → next < s → request next = false) ∧ c.taken s = true
  ordered : ∀ n, (times c.taken 0 n).map c.payload <+: (times request 0 n).map c.payload

section Pulses

variable {request : ℕ → Bool} {c : Channel α}

private theorem payload_after_request (spaced : Spaced request c.ready)
    (stable : Stable request c.payload)
    {t : ℕ} (asked : request t = true) : c.payload (t + 1) = c.payload t := by
  obtain ⟨u, first, apart⟩ := spaced t asked
  apply stable t (t + 1) asked (Nat.le_succ t)
  intro next after before
  obtain rfl : next = t + 1 := by omega
  by_contra asked_again
  have early := apart (t + 1) after (Bool.not_eq_false _ ▸ asked_again)
  have later := first.later
  omega

structure Pulsed (request : ℕ → Bool) (c : Channel α) : Prop where
  silent : c.valid 0 = false
  pulse : ∀ t, c.valid (t + 1) = request t

variable (pulsed : Pulsed request c)
include pulsed

private theorem request_before_taken {s : ℕ} (taken : c.taken s = true) :
    ∃ t, s = t + 1 ∧ request t = true := by
  have valid := (Bool.and_eq_true_iff.mp taken).1
  cases s with
  | zero =>
    rw [pulsed.silent] at valid
    cases valid
  | succ t =>
    rw [pulsed.pulse] at valid
    exact ⟨t, rfl, valid⟩

theorem ready_of_held (spaced : Spaced request c.ready) (lossless : Lossless request c) {t : ℕ}
    (asked : request t = true) : c.ready (t + 1) = true := by
  obtain ⟨u, first, apart⟩ := spaced t asked
  have held := lossless.held t u asked first
  have later := first.later
  rcases Nat.lt_or_eq_of_le (Nat.succ_le_of_lt later) with waits | rfl
  · -- valid in the second cycle would mean a request in the first one
    have valid := (held (t + 2) (by omega) waits).1
    rw [pulsed.pulse] at valid
    have early := apart (t + 1) (by omega) valid
    omega
  · exact first.high

variable (ready : ∀ t, request t = true → c.ready (t + 1) = true)
include ready

private theorem taken_after_request (t : ℕ) : c.taken (t + 1) = request t := by
  rw [Channel.taken, pulsed.pulse]
  cases asked : request t with
  | false => rfl
  | true => exact ready t asked

private theorem times_taken (n : ℕ) :
    times c.taken 0 (n + 1) = (times request 0 n).map (· + 1) := by
  have first : times c.taken 0 1 = [] := by
    apply times_eq_nil
    intro k _ before
    obtain rfl : k = 0 := by omega
    rw [Channel.taken, pulsed.silent, Bool.false_and]
  rw [times_split 1 (Nat.zero_le 1) (by omega), first, List.nil_append]
  exact times_shift fun k _ _ => taken_after_request pulsed ready k

variable (spaced : Spaced request c.ready) (stable : Stable request c.payload)
include spaced stable

private theorem lossless_of_ready : Lossless request c := by
  constructor
  · intro t u asked first s after before
    have next : u ≤ t + 1 := by
      by_contra late
      have stalled := first.stalled (t + 1) (by omega) (by omega)
      rw [ready t asked] at stalled
      cases stalled
    obtain rfl : s = t + 1 := by omega
    exact ⟨by rw [pulsed.pulse, asked], payload_after_request spaced stable asked⟩
  · intro t asked
    refine ⟨t + 1, ⟨by omega, ?_, ?_⟩, ?_⟩
    · intro next after before
      omega
    · rw [taken_after_request pulsed ready, asked]
    · rintro s ⟨after, alone, taken⟩
      obtain ⟨t', rfl, asked'⟩ := request_before_taken pulsed taken
      by_contra other
      have quiet := alone t' (by omega) (by omega)
      rw [asked'] at quiet
      cases quiet
  · intro n
    cases n with
    | zero => exact List.nil_prefix
    | succ n =>
      have same : (times c.taken 0 (n + 1)).map c.payload = (times request 0 n).map c.payload := by
        rw [times_taken pulsed ready, List.map_map]
        apply List.map_congr_left
        intro t member
        exact payload_after_request spaced stable (mem_times.mp member).2.2
      rw [same, times_succ (Nat.zero_le n), List.map_append]
      exact List.prefix_append _ _

omit ready in
/-- A pulsed channel loses nothing exactly if the receiver is ready in the cycle after every request. -/
theorem lossless_iff_ready :
    Lossless request c ↔ ∀ t, request t = true → c.ready (t + 1) = true := by
  constructor
  · intro lossless t asked
    exact ready_of_held pulsed spaced lossless asked
  · intro ready
    exact lossless_of_ready pulsed ready spaced stable

end Pulses

end Pypga.Foundation.Handshake
