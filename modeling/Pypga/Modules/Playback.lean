/- GID: Pypga/Modules/Playback
   generality: G
   digest: A trigger plays the stored values in their order, one sampling period each, and repeatedly. -/

import Pypga.Migen.BurstRepetition
import Pypga.Modules.Awg

set_option autoImplicit false
set_option relaxedAutoImplicit false

namespace Pypga.Modules.Playback

open Pypga.Foundation.ClockedMachine (run run_succ run_invariant)
open Pypga.Foundation.FixedWidth
open Pypga.Migen.Operands (getLength lt_two_pow_get_length)
open Pypga.Migen.BurstSchedule
open Pypga.Migen.BurstRepetition
open Pypga.Core.MemoryRegister
open Pypga.Modules.Awg

variable {a : Arguments} {κ μ ν : Type*}
variable {csr : CsrStorage (a.dataWidth + 1) κ} {memory : MemoryPort a.dataWidth a.dataDepth μ}
variable {playback : ReadPort a.dataWidth a.dataDepth ν}
variable {data : Register a.dataWidth a.dataDepth κ μ} {port : ν}
variable {s : State a.dataWidth a.dataDepth κ μ ν} {w : ℕ → Input}

def Stores (memory : MemoryPort a.dataWidth a.dataDepth μ) (values : List ℚ)
    (r : Register a.dataWidth a.dataDepth κ μ) : Prop :=
  ∀ i x, (a.assignedWords values)[i]? = some x → memory.mem r.memory i = x

theorem stores_initial {values : List ℚ} (given : a.initialData = some values)
    {r : Register a.dataWidth a.dataDepth κ μ} (initial : memory.mem r.memory = a.initialMemory) :
    Stores memory values r := by
  intro i x word
  rw [Arguments.assignedWords, List.map_reverse] at word
  rw [initial, Arguments.initialMemory, given]
  simp only [List.getD_eq_getElem?_getD, word, Option.getD_some]

private theorem stored_entry {values : List ℚ} (full : values.length = a.dataDepth)
    {r : Register a.dataWidth a.dataDepth κ μ} (stores : Stores memory values r) {i : ℕ} {x : ℚ}
    (value : values[i]? = some x) : memory.mem r.memory (a.dataDepth - 1 - i) = a.encode x := by
  obtain ⟨below, -⟩ := List.getElem?_eq_some_iff.mp value
  apply stores
  have order : values.length - 1 - (a.dataDepth - 1 - i) = i := by omega
  rw [Arguments.assignedWords, List.getElem?_map, List.getElem?_reverse (by omega), order, value]
  rfl

private theorem out_succ {u : ℕ} (quiet : (a.history csr memory playback s w u).data.we = false)
    (inside : (a.burst csr memory playback s w u).count < a.dataDepth) :
    a.out csr memory playback s w (u + 1) =
      memory.mem (a.history csr memory playback s w u).data.memory
        (a.burst csr memory playback s w u).count := by
  have address : (BitVec.ofNat (adrWidth a.dataDepth) (a.burst csr memory playback s w u).count).toNat =
      (a.burst csr memory playback s w u).count := by
    rw [BitVec.toNat_ofNat, Nat.mod_eq_of_lt (lt_two_pow_adr_width inside)]
  have shown := playback.dat_r_next (BitVec.ofNat _ (a.burst csr memory playback s w u).count)
    (memory.mem (a.history csr memory playback s w u).data.memory)
    (a.history csr memory playback s w u).port (by rw [address]; exact inside)
  rw [address] at shown
  rw [← shown, ← quiet]
  rfl

theorem pulses_value (deep : 2 ≤ a.dataDepth) :
    trunc (getLength a.pulseburst.pulses) ((a.dataDepth : ℤ) - 1) = a.dataDepth - 1 := by
  have last : (a.dataDepth : ℤ) - 1 = ((a.dataDepth - 1 : ℕ) : ℤ) := by omega
  show trunc (getLength (.int ((a.dataDepth : ℤ) - 1))) ((a.dataDepth : ℤ) - 1) = _
  rw [last]
  exact trunc_of_fits (lt_two_pow_get_length _)

private theorem period_lt (created : a.create data port = .ok s) (u : ℕ) :
    (a.history csr memory playback s w u).samplingPeriodCycles < 2 ^ a.samplingPeriodWidth := by
  refine run_invariant (fun (_ : ℕ) (s : State a.dataWidth a.dataDepth κ μ ν) =>
    s.samplingPeriodCycles < 2 ^ a.samplingPeriodWidth) ?_ ?_ u
  · rw [(create_registers created).2.2]
    exact trunc_lt _ _
  · intro n s before
    simp only [Arguments.next]
    split
    · exact trunc_lt _ _
    · exact before

/-- The sampling period and the data are not changed in the cycles `t ≤ u < h`. -/
structure Held (csr : CsrStorage (a.dataWidth + 1) κ) (memory : MemoryPort a.dataWidth a.dataDepth μ)
    (playback : ReadPort a.dataWidth a.dataDepth ν) (s : State a.dataWidth a.dataDepth κ μ ν)
    (w : ℕ → Input) (values : List ℚ) (period t h : ℕ) : Prop where
  period : ∀ u, t ≤ u → u < h → (a.history csr memory playback s w u).samplingPeriodCycles + 2 = period
  stores : ∀ u, t ≤ u → u < h → Stores memory values (a.history csr memory playback s w u).data
  quiet : ∀ u, t ≤ u → u < h → (a.history csr memory playback s w u).data.we = false

theorem Held.counted (created : a.create data port = .ok s) {values : List ℚ} {t q h : ℕ} (slow : 1 ≤ q)
    (held : Held csr memory playback s w values (q + 2) t h) (u : ℕ) (after : t ≤ u) (before : u < h) :
    trunc (getLength a.pulseburst.period)
      (a.burstInput (w u) (a.history csr memory playback s w u)).period = q := by
  have storage : (a.history csr memory playback s w u).samplingPeriodCycles = q := by
    have here := held.period u after before
    omega
  rw [← storage]
  exact a.samplingPeriodCycles.signal_value _ (period_lt created u) (by omega)

theorem held_of_silent {values : List ℚ} {period t h : ℕ}
    (settled : Quiet csr (a.history csr memory playback s w t).data)
    (stores : Stores memory values (a.history csr memory playback s w t).data)
    (now : (a.history csr memory playback s w t).samplingPeriodCycles + 2 = period)
    (silent : ∀ u, t ≤ u → u < h → (w u).bus = none ∧ (w u).assigned = none) :
    Held csr memory playback s w values period t h := by
  have kept (k : ℕ) (inside : t + k < h) :
      (a.history csr memory playback s w (t + k)).samplingPeriodCycles + 2 = period ∧
        Unchanged csr memory (a.history csr memory playback s w t).data
          (a.history csr memory playback s w (t + k)).data := by
    induction k with
    | zero => exact ⟨now, settled, rfl, rfl, rfl⟩
    | succ k ih =>
      obtain ⟨before, same⟩ := ih (by omega)
      obtain ⟨bus, assigned⟩ := silent (t + k) (by omega) (by omega)
      have edge : a.history csr memory playback s w (t + (k + 1)) =
          a.next csr memory playback (w (t + k)) (a.history csr memory playback s w (t + k)) := rfl
      have next := quiet_edge memory false same.quiet
      rw [edge, Arguments.next, bus, assigned]
      exact ⟨before, next.quiet, next.mem.trans same.mem, next.adr.trans same.adr,
        next.storage.trans same.storage⟩
  refine ⟨?_, ?_, ?_⟩
  · intro u after before
    obtain ⟨k, rfl⟩ := Nat.exists_eq_add_of_le after
    exact (kept k before).1
  · intro u after before i x word
    obtain ⟨k, rfl⟩ := Nat.exists_eq_add_of_le after
    rw [(kept k before).2.mem]
    exact stores i x word
  · intro u after before
    obtain ⟨k, rfl⟩ := Nat.exists_eq_add_of_le after
    exact (kept k before).2.quiet.we

section Play

variable (deep : 2 ≤ a.dataDepth) (created : a.create data port = .ok s)
variable {values : List ℚ} (full : values.length = a.dataDepth) {t q h : ℕ} (slow : 1 ≤ q)
variable (idle : (a.burst csr memory playback s w t).busy = false)
variable (rested : t = 0 ∨ (a.burst csr memory playback s w (t - 1)).busy = false)
variable (triggered : a.trigger (w t) (a.history csr memory playback s w t) = true)
variable (held : Held csr memory playback s w values (q + 2) t h)
include deep created slow idle rested triggered held

private theorem at_value (r i m : ℕ) (few : i < a.dataDepth) (short : m < q + 2)
    (inside : t + 1 + (r * (a.dataDepth * (q + 2)) + (i * (q + 2) + m)) ≤ h)
    (triggers : ∀ k < r, a.trigger (w (t + (k + 1) * (a.dataDepth * (q + 2))))
      (a.history csr memory playback s w (t + (k + 1) * (a.dataDepth * (q + 2)))) = true) :
    At a.pulseburst q (a.dataDepth - 1 - i) m (a.burst csr memory playback s w
      (t + 1 + (r * (a.dataDepth * (q + 2)) + (i * (q + 2) + m)))) := by
  have off := (create_rest created).2.2
  have bounded := (create_rest created).1
  have steady := held.counted created slow
  obtain ⟨n, depth⟩ : ∃ n, a.dataDepth = n + 1 := ⟨a.dataDepth - 1, by omega⟩
  have pulses : trunc (getLength a.pulseburst.pulses) ((a.dataDepth : ℤ) - 1) = n := by
    rw [pulses_value deep]
    omega
  have whole : (n + 1) * (q + 2) = n * (q + 2) + (q + 1) + 1 := by
    rw [Nat.succ_mul]
    omega
  have label : a.dataDepth - 1 - i = n - i := by omega
  rw [label]
  rw [depth] at few inside triggers ⊢
  rw [burst_run] at idle rested ⊢
  have clear : ∀ u, (a.burstInput (w u) (a.history csr memory playback s w u)).reset = false :=
    fun _ => rfl
  have count : trunc (getLength a.pulseburst.pulses)
      (a.burstInput (w t) (a.history csr memory playback s w t)).pulses = n := pulses
  have start : At a.pulseburst q n 0 (run a.pulseburst.next s.pulseburst
      (fun u => a.burstInput (w u) (a.history csr memory playback s w u)) (t + 1)) := by
    rw [run_succ, ← count]
    exact at_start (clear t) (steady t le_rfl (by omega)) slow triggered idle
      (off_of_rested clear off idle rested)
  have first := at_repeated clear bounded (fun u after => steady u (by omega))
    (fun _ _ _ => pulses) slow start r (e := h) (by omega) ?_
  · have here := at_cycle clear bounded (fun u after => steady u (by omega)) slow first i m
      (by omega) (by omega) (e := h) (by omega)
    rw [← Nat.add_assoc]
    exact here
  · intro k earlier
    have cycle : t + 1 + k * ((n + 1) * (q + 2)) + (n * (q + 2) + (q + 1)) =
        t + (k + 1) * ((n + 1) * (q + 2)) := by
      rw [Nat.succ_mul k]
      omega
    rw [cycle]
    exact triggers k earlier

include full

private theorem shows_value (r i m : ℕ) {value : ℚ} (is : values[i]? = some value)
    (short : m < q + 2)
    (inside : t + 1 + (r * (a.dataDepth * (q + 2)) + (i * (q + 2) + m)) < h)
    (triggers : ∀ k < r, a.trigger (w (t + (k + 1) * (a.dataDepth * (q + 2))))
      (a.history csr memory playback s w (t + (k + 1) * (a.dataDepth * (q + 2)))) = true) :
    a.out csr memory playback s w
      (t + 2 + (r * (a.dataDepth * (q + 2)) + (i * (q + 2) + m))) = a.encode value := by
  obtain ⟨below, -⟩ := List.getElem?_eq_some_iff.mp is
  have here := at_value deep created slow idle rested triggered held r i m (by omega) short
    inside.le triggers
  have cycle : t + 2 + (r * (a.dataDepth * (q + 2)) + (i * (q + 2) + m)) =
      t + 1 + (r * (a.dataDepth * (q + 2)) + (i * (q + 2) + m)) + 1 := by omega
  rw [cycle, out_succ (held.quiet _ (by omega) inside) (by rw [here.count]; omega), here.count]
  exact stored_entry full (held.stores _ (by omega) inside) is

private theorem keeps_last {u : ℕ} (after : t + a.dataDepth * (q + 2) < u) (inside : u < h)
    (quiet : ∀ v, t + a.dataDepth * (q + 2) ≤ v → v < u →
      a.trigger (w v) (a.history csr memory playback s w v) = false)
    {value : ℚ} (last : values[a.dataDepth - 1]? = some value) :
    (a.burst csr memory playback s w u).busy = false ∧
      a.out csr memory playback s w (u + 1) = a.encode value := by
  have whole : a.dataDepth * (q + 2) = (a.dataDepth - 1) * (q + 2) + (q + 1) + 1 := by
    obtain ⟨n, depth⟩ : ∃ n, a.dataDepth = n + 1 := ⟨a.dataDepth - 1, by omega⟩
    rw [depth, Nat.succ_mul, Nat.add_sub_cancel]
    omega
  have ending := at_value deep created slow idle rested triggered held 0 (a.dataDepth - 1) (q + 1)
    (by omega) (by omega) (by omega) (fun k none => absurd none (Nat.not_lt_zero k))
  have cycle : t + 1 + (0 * (a.dataDepth * (q + 2)) + ((a.dataDepth - 1) * (q + 2) + (q + 1))) =
      t + a.dataDepth * (q + 2) := by omega
  rw [cycle, Nat.sub_self] at ending
  obtain ⟨k, rfl⟩ : ∃ k, u = t + a.dataDepth * (q + 2) + k + 1 :=
    ⟨u - (t + a.dataDepth * (q + 2)) - 1, by omega⟩
  have rest : (a.burst csr memory playback s w (t + a.dataDepth * (q + 2) + k + 1)).busy = false ∧
      (a.burst csr memory playback s w (t + a.dataDepth * (q + 2) + k + 1)).count = 0 := by
    rw [burst_run] at ending ⊢
    exact rests (fun _ => rfl) ending k fun v later before => quiet v later (by omega)
  refine ⟨rest.1, ?_⟩
  rw [out_succ (held.quiet _ (by omega) inside) (by rw [rest.2]; omega), rest.2]
  have entry := stored_entry full (held.stores _ (by omega) inside) last
  rwa [Nat.sub_self] at entry

end Play

/-- A trigger at rest plays all values in their order, each for one sampling period; the last one
stays until the next trigger, and while `always_on` is high the sequence repeats without a gap. -/
theorem playback_in_order {κ μ ν : Type*} (a : Arguments) (deep : 2 ≤ a.dataDepth)
    (csr : CsrStorage (a.dataWidth + 1) κ) (memory : MemoryPort a.dataWidth a.dataDepth μ)
    (playback : ReadPort a.dataWidth a.dataDepth ν) (data : Register a.dataWidth a.dataDepth κ μ)
    (port : ν) (s : State a.dataWidth a.dataDepth κ μ ν) (created : a.create data port = .ok s)
    (w : ℕ → Input) (values : List ℚ) (full : values.length = a.dataDepth) (P : ℕ) (slow : 3 ≤ P)
    (t h : ℕ) (held : Held csr memory playback s w values P t h)
    (idle : (a.burst csr memory playback s w t).busy = false)
    (rested : t = 0 ∨ (a.burst csr memory playback s w (t - 1)).busy = false)
    (triggered : a.trigger (w t) (a.history csr memory playback s w t) = true) :
    (∀ i m value, values[i]? = some value → m < P → t + 1 + (i * P + m) < h →
      a.out csr memory playback s w (t + 2 + (i * P + m)) = a.encode value) ∧
    (∀ u, t + a.dataDepth * P < u → u < h →
      (∀ v, t + a.dataDepth * P ≤ v → v < u →
        a.trigger (w v) (a.history csr memory playback s w v) = false) →
      ∀ value, values[a.dataDepth - 1]? = some value →
        (a.burst csr memory playback s w u).busy = false ∧
          a.out csr memory playback s w (u + 1) = a.encode value) ∧
    ((∀ u, t < u → u < h → (a.history csr memory playback s w u).alwaysOn = 1) →
      ∀ r i m value, values[i]? = some value → m < P →
        t + 1 + (r * (a.dataDepth * P) + (i * P + m)) < h →
        a.out csr memory playback s w (t + 2 + (r * (a.dataDepth * P) + (i * P + m))) =
          a.encode value) := by
  obtain ⟨q, rfl⟩ : ∃ q, P = q + 2 := ⟨P - 2, by omega⟩
  refine ⟨?_, ?_, ?_⟩
  · intro i m value is short inside
    have shown := shows_value deep created full (by omega) idle rested triggered held 0 i m is short
      (by omega) (fun k none => absurd none (Nat.not_lt_zero k))
    rwa [Nat.zero_mul, Nat.zero_add] at shown
  · intro u after inside quiet value last
    exact keeps_last deep created full (by omega) idle rested triggered held after inside quiet last
  · intro on r i m value is short inside
    apply shows_value deep created full (by omega) idle rested triggered held r i m is short inside
    intro k earlier
    have bound : (k + 1) * (a.dataDepth * (q + 2)) ≤ r * (a.dataDepth * (q + 2)) :=
      Nat.mul_le_mul_right _ (Nat.succ_le_of_lt earlier)
    have some_cycle : 0 < (k + 1) * (a.dataDepth * (q + 2)) := by positivity
    have high := on (t + (k + 1) * (a.dataDepth * (q + 2))) (by omega) (by omega)
    rw [Arguments.trigger, high]
    exact Bool.or_true _

def twoValues : Arguments where
  dataDepth := 2
  dataWidth := 2
  dataDecimals := 2
  dataSigned := false
  initialData := some [1 / 3, 2 / 3]
  samplingPeriodWidth := 4
  defaultSamplingPeriodCycles := 3

def twoPlayer : State twoValues.dataWidth twoValues.dataDepth (BitVec 3 × Bool)
    ((ℕ → BitVec 2) × BitVec (adrWidth 2)) (BitVec 2) where
  samplingPeriodCycles := 1
  alwaysOn := 0
  data := ⟨(0, false), (twoValues.initialMemory, 0), 0, false, false, false, 0, false⟩
  port := 0
  pulseburst := ⟨⟨false, 0, false⟩, false, false, 0, false⟩

def playOnce : ℕ → Input := fun k => ⟨k == 0, false, none, none⟩

theorem playback_in_order_two :
    (∀ m < 3, twoValues.out (csrStorage 3) (writeFirst 2 2) (dataRegister 2 2) twoPlayer playOnce
        (2 + m) = twoValues.encode (1 / 3)) ∧
      ∀ m < 3, twoValues.out (csrStorage 3) (writeFirst 2 2) (dataRegister 2 2) twoPlayer playOnce
        (5 + m) = twoValues.encode (2 / 3) := by
  have held : Held (a := twoValues) (csrStorage 3) (writeFirst 2 2) (dataRegister 2 2) twoPlayer playOnce
      [1 / 3, 2 / 3] 3 0 20 := by
    refine held_of_silent ⟨rfl, rfl, rfl, rfl, rfl⟩ (stores_initial rfl rfl) ?_ ?_
    · rfl
    · intro u _ _
      exact ⟨rfl, rfl⟩
  have plays := (playback_in_order twoValues le_rfl (csrStorage 3) (writeFirst 2 2) (dataRegister 2 2)
    twoPlayer.data 0 twoPlayer rfl playOnce [1 / 3, 2 / 3] rfl 3 le_rfl 0 20 held rfl (.inl rfl) rfl).1
  refine ⟨?_, ?_⟩
  · intro m short
    have first := plays 0 m (1 / 3) rfl short (by omega)
    rwa [Nat.zero_mul, Nat.zero_add, Nat.zero_add] at first
  · intro m short
    have second := plays 1 m (2 / 3) rfl short (by omega)
    rwa [Nat.one_mul, ← Nat.add_assoc] at second

end Pypga.Modules.Playback
