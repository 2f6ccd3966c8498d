/- GID: Pypga/Modules/StoragePaths
   generality: G
   digest: The on-chip memory and the RAM keep the same samples only if the values are settled at the pulses. -/

import Pypga.Modules.RamReadback
import Pypga.Modules.SampleReduction

set_option autoImplicit false
set_option relaxedAutoImplicit false

namespace Pypga.Modules.StoragePaths

open Pypga.Foundation.ClockedMachine (run)
open Pypga.Foundation.LittleEndian (Word)
open Pypga.Foundation.PeakHold (better)
open Pypga.Foundation.StoreSequence
open Pypga.Migen
open Pypga.Migen.PulseGenerators
open Pypga.Migen.BurstDecomposition (accepted)
open Pypga.Migen.BurstWindows
open Pypga.Core.MemoryRegister
open Pypga.Modules.Daq
open Pypga.Modules.AcquisitionLength (Kept acquired kept_length)
open Pypga.Modules.Recording
open Pypga.Modules.RamReadback (Captured captured_unit)
open Pypga.Modules.SampleReduction
open Pypga.Modules.TimeOrder (two twoPowerUp once)

section Settled

variable {width bits : ℕ}

/-- What the reduce mode selects does not change at the clock edge after a cycle with the burst
generator `g` and the signals `i`; those of the next cycle are `j`. -/
def Settled (signed : Bool) (g : BurstGen) (i j : Signals width) (s : Reduction width bits) : Prop :=
  match i.reduceMode with
  | 0 => s.average signed i = s.averageValue
  | 1 => if g.out then i.input = s.valueMax
    else g.busy = true → number signed i.input ≤ number signed s.valueMax
  | 2 => if g.out then i.input = s.valueMin
    else g.busy = true → number signed s.valueMin ≤ number signed i.input
  | 3 => j.input = i.input
  | 4 => if g.out then s.edgeCount.setWidth width = 0 else g.busy = true → s.edge signed i = false
  | 5 => j.offset = i.offset
  | 6 => if g.out then s.count.setWidth width = 0 else g.busy = false
  | _ => True

private theorem count_changes {n m : ℕ} (counts : 0 < n) (shows : 0 < m) (x : BitVec n) :
    (x + 1).setWidth m ≠ x.setWidth m := by
  intro same
  have even (k : ℕ) (positive : 0 < k) : 2 ∣ 2 ^ k := dvd_pow_self 2 positive.ne'
  have one : (1 : BitVec n).toNat = 1 :=
    (BitVec.toNat_ofNat 1 n).trans (Nat.mod_eq_of_lt (Nat.one_lt_two_pow counts.ne'))
  have last := congrArg (fun y => y.toNat % 2) same
  simp only [BitVec.toNat_setWidth, BitVec.toNat_add, one, Nat.mod_mod_of_dvd _ (even m shows),
    Nat.mod_mod_of_dvd _ (even n counts)] at last
  omega

variable {signed : Bool} {g : BurstGen} {i j : Signals width} {s : Reduction width bits}

private theorem max_unchanged_iff :
    (s.next signed i g).valueMax = s.valueMax ↔
      if g.out then i.input = s.valueMax
      else g.busy = true → number signed i.input ≤ number signed s.valueMax := by
  have same : (s.next signed i g).peak false = s.peak false ↔ _ := peak_unchanged_iff false
  simp only [better, Bool.false_eq_true, if_false, max_eq_left_iff] at same
  exact same

private theorem min_unchanged_iff :
    (s.next signed i g).valueMin = s.valueMin ↔
      if g.out then i.input = s.valueMin
      else g.busy = true → number signed s.valueMin ≤ number signed i.input := by
  have same : (s.next signed i g).peak true = s.peak true ↔ _ := peak_unchanged_iff true
  simp only [better, if_true, min_eq_left_iff] at same
  exact same

section Counters

variable {n m : ℕ} {x y : BitVec n} {counting : Bool}
  (next : y = if g.out then 0 else if counting then x + 1 else x)
include next

private theorem counter_unchanged (settled : if g.out then x.setWidth m = 0 else counting = false) :
    y.setWidth m = x.setWidth m := by
  rw [next]
  cases pulse : g.out with
  | true =>
    rw [if_pos pulse] at settled
    rw [if_pos rfl, settled]
    exact BitVec.setWidth_zero m n
  | false =>
    rw [if_neg (by simp [pulse])] at settled
    rw [settled]
    rfl

private theorem counter_settled (counts : 0 < n) (shows : 0 < m)
    (unchanged : y.setWidth m = x.setWidth m) :
    if g.out then x.setWidth m = 0 else counting = false := by
  rw [next] at unchanged
  cases pulse : g.out with
  | true =>
    rw [pulse, if_pos rfl] at unchanged
    rw [if_pos rfl, ← unchanged]
    exact BitVec.setWidth_zero m n
  | false =>
    rw [if_neg Bool.false_ne_true, Bool.eq_false_iff]
    intro on
    apply count_changes counts shows x
    rw [pulse, if_neg Bool.false_ne_true, if_pos on] at unchanged
    exact unchanged

end Counters

private theorem edges_settled_iff :
    (if g.out then s.edgeCount.setWidth width = 0 else g.busy = true → s.edge signed i = false) ↔
      if g.out then s.edgeCount.setWidth width = 0 else (g.busy && s.edge signed i) = false := by
  rw [Bool.and_eq_false_imp]

variable (same : j.reduceMode = i.reduceMode)
include same

private theorem selected_of_settled (settled : Settled signed g i j s) :
    (s.next signed i g).selected j = s.selected i := by
  unfold Settled at settled
  unfold Reduction.selected
  rw [same]
  generalize mode : i.reduceMode = m at settled ⊢
  match m with
  | 0 => exact settled
  | 1 => exact max_unchanged_iff.mpr settled
  | 2 => exact min_unchanged_iff.mpr settled
  | 3 => exact settled
  | 4 => exact counter_unchanged next_edge_count (edges_settled_iff.mp settled)
  | 5 => exact settled
  | 6 => exact counter_unchanged next_count settled
  | m + 7 =>
    show s.selected i = s.value
    unfold Reduction.selected
    rw [mode]
    rfl

private theorem settled_of_selected (wide : 0 < width) (counts : 0 < bits)
    (unchanged : (s.next signed i g).selected j = s.selected i) : Settled signed g i j s := by
  unfold Reduction.selected at unchanged
  unfold Settled
  rw [same] at unchanged
  generalize i.reduceMode = m at unchanged ⊢
  match m with
  | 0 => exact unchanged
  | 1 => exact max_unchanged_iff.mp unchanged
  | 2 => exact min_unchanged_iff.mp unchanged
  | 3 => exact unchanged
  | 4 => exact edges_settled_iff.mpr (counter_settled next_edge_count (by decide) wide unchanged)
  | 5 => exact unchanged
  | 6 => exact counter_settled next_count counts wide unchanged
  | _ + 7 => trivial

end Settled

def onChip (a : Arguments) : Arguments := { a with axiHpIndex := none }

def inRam (a : Arguments) : Arguments := { a with axiHpIndex := some 0 }

private theorem create_same (a : Arguments) : (inRam a).create = (onChip a).create := rfl

section Counts

variable {a : Arguments} {s : State} (created : a.create = .ok s) {w : ℕ → Input} {n : ℕ}
variable (short : ∀ t, accepted (a.burst s w) (fun k => (w k).trigger) (fun _ => false) t →
  acquired a (run a.next s w t).length ≤ n)
include created short

private theorem busy_count_lt (k : ℕ) (busy : (a.burst s w k).busy = true) :
    (a.burst s w k).count < n := by
  induction k with
  | zero =>
    rw [show a.burst s w 0 = s.pulseburst from rfl, (create_off created).1] at busy
    cases busy
  | succ k ih =>
    have bounded : Bounded a.pulseburst (a.burst s w k) := by
      rw [burst_run]
      exact bounded_run _ (create_idle created).1 k
    refine count_lt_next (c := a.pulseburst) (i := a.burstInput (w k) (run a.next s w k)) rfl bounded
      ?_ ih busy
    intro trigger free
    exact short k ⟨trigger, rfl, free⟩

private theorem pulse_count_lt (k : ℕ) (pulse : (a.burst s w k).out = true) :
    (a.burst s w k).count < n := by
  cases k with
  | zero =>
    rw [show a.burst s w 0 = s.pulseburst from rfl, (create_off created).2.1] at pulse
    cases pulse
  | succ k =>
    apply busy_count_lt created short
    exact next_out_busy (c := a.pulseburst) (i := a.burstInput (w k) (run a.next s w k)) rfl pulse

end Counts

section Pulses

variable {r : ℕ → BurstGen} {k : ℕ}

/-- The pulse in the cycle `u` is the last one before the cycle `k` with its count. -/
structure LastOfCount (r : ℕ → BurstGen) (k u : ℕ) : Prop where
  before : u < k
  pulse : (r u).out = true
  last : ∀ v, u < v → v < k → (r v).out = true → (r v).count ≠ (r u).count

private theorem last_of_count_exists {u : ℕ} (before : u < k) (pulse : (r u).out = true) :
    ∃ v, LastOfCount r k v ∧ (r v).count = (r u).count := by
  induction k with
  | zero => exact absurd before (Nat.not_lt_zero u)
  | succ k ih =>
    by_cases here : (r k).out = true ∧ (r k).count = (r u).count
    · exact ⟨k, ⟨Nat.lt_succ_self k, here.1, fun v later earlier => by omega⟩, here.2⟩
    · have earlier : u < k := by
        rcases Nat.lt_succ_iff_lt_or_eq.mp before with inside | rfl
        · exact inside
        · exact absurd ⟨pulse, rfl⟩ here
      obtain ⟨v, ⟨inside, high, last⟩, same⟩ := ih earlier
      refine ⟨v, ⟨Nat.lt_succ_of_lt inside, high, ?_⟩, same⟩
      intro x later within strobe
      rcases Nat.lt_succ_iff_lt_or_eq.mp within with less | rfl
      · exact last x later less strobe
      · intro equal
        exact here ⟨strobe, equal.trans same⟩

/-- Under every count with a pulse before the cycle `k` lies the same sample, which the RAM has
extended to 64 bits. -/
def Agree {width : ℕ} (r : ℕ → BurstGen) (k : ℕ) (signed : Bool) (cells : ℕ → BitVec width)
    (ram : ℕ → BitVec 64) : Prop :=
  ∀ u < k, (r u).out = true → ram (unit 0 (r u).count) = extend signed (cells (r u).count)

private theorem agree_iff {width : ℕ} {value : ℕ → BitVec width} {signed : Bool}
    {cells : ℕ → BitVec width}
    {ram : ℕ → BitVec 64} (stored : ∀ u, LastOfCount r k u → cells (r u).count = value u)
    (sent : ∀ u, LastOfCount r k u → ram (unit 0 (r u).count) = extend signed (value (u + 1))) :
    Agree r k signed cells ram ↔
      ∀ u, LastOfCount r k u → extend signed (value (u + 1)) = extend signed (value u) := by
  constructor
  · intro agree u last
    rw [← sent u last, ← stored u last]
    exact agree u last.before last.pulse
  · intro same u before pulse
    obtain ⟨v, last, label⟩ := last_of_count_exists before pulse
    rw [← label, sent v last, stored v last]
    exact same v last

private theorem extend_injective {width : ℕ} {signed : Bool} (narrow : width ≤ 64)
    {x y : BitVec width}
    (same : extend signed x = extend signed y) : x = y := by
  cases signed with
  | false =>
    apply BitVec.eq_of_toNat_eq
    have numbers := congrArg BitVec.toNat same
    have power : 2 ^ width ≤ 2 ^ 64 := Nat.pow_le_pow_right (by decide) narrow
    have left := x.isLt
    have right := y.isLt
    simp only [extend, Bool.false_eq_true, if_false, BitVec.toNat_setWidth] at numbers
    rw [Nat.mod_eq_of_lt (by omega), Nat.mod_eq_of_lt (by omega)] at numbers
    exact numbers
  | true =>
    apply BitVec.eq_of_toInt_eq
    have numbers := congrArg BitVec.toInt same
    simp only [extend, if_true, BitVec.toInt_signExtend_of_le narrow] at numbers
    exact numbers

end Pulses

section Paths

variable {a : Arguments} {r : ℕ → BurstGen} {value : ℕ → BitVec a.dataWidth} {n k : ℕ}
variable (below : ∀ u, (r u).out = true → (r u).count < n)
include below

private theorem memory_last {κ μ : Type*} {csr : CsrStorage (a.dataWidth + 1) κ}
    {port : MemoryPort a.dataWidth a.dataDepth μ} (bus : ℕ → Option Word)
    (register : Register a.dataWidth a.dataDepth κ μ) (room : n ≤ a.dataDepth) {u : ℕ}
    (last : LastOfCount r k u) :
    port.mem (record csr port r value bus register k).memory (r u).count = value u := by
  have log := last_store_log value id id (Nat.zero_le u) last.before last.pulse
    last.last
  have plain : (storeLog r value 0 k).map (fun s => (id s.1, id s.2)) = storeLog r value 0 k :=
    List.map_id _
  rw [plain] at log
  rw [record_mem r value bus register (Nat.zero_le k)
    (fun v _ _ pulse => (below v pulse).trans_le room), store_all_eq]
  exact congrArg (fun o => Option.getD o _) log

private theorem ram_last (start : AxiWriter.State) (few : n ≤ 2 ^ 20) {u : ℕ}
    (last : LastOfCount r k u) :
    (recordRam 0 a.dataSigned (fun _ => ⟨true, true⟩) r value start (k + 1)).ram
      (unit 0 (r u).count) = extend a.dataSigned (value (u + 1)) := by
  have label := below u last.pulse
  have captured : Captured r value 0 k (r u).count (value (u + 1)) u := by
    refine ⟨⟨Nat.zero_le u, last.before⟩, last.pulse, rfl, rfl, ?_⟩
    intro v later before pulse
    have small := below v pulse
    rw [Nat.mod_eq_of_lt (by omega)]
    exact last.last v later before pulse
  exact captured_unit (by decide) start (fun _ _ _ _ => ⟨rfl, rfl⟩) (by omega) captured

end Paths

section Storages

variable (a : Arguments) (maxSamplesInBits : ℕ) (s : State) (w : ℕ → Input)
variable (i : ℕ → Signals a.dataWidth)

/-- The entries of the memory of the one DAQ before the cycle `k`. -/
def chipCells {κ μ : Type*} (csr : CsrStorage (a.dataWidth + 1) κ)
    (port : MemoryPort a.dataWidth a.dataDepth μ) (bus : ℕ → Option Word)
    (register : Register a.dataWidth a.dataDepth κ μ) (k : ℕ) : ℕ → BitVec a.dataWidth :=
  port.mem (record csr port ((onChip a).burst s w)
    (value a.dataSigned maxSamplesInBits ((onChip a).burst s w) i) bus register k).memory

def ramUnits (start : AxiWriter.State) (k : ℕ) : ℕ → BitVec 64 :=
  (recordRam 0 a.dataSigned (fun _ => ⟨true, true⟩) ((inRam a).burst s w)
    (value a.dataSigned maxSamplesInBits ((inRam a).burst s w) i) start (k + 1)).ram

/-- What the reduce mode selects is settled at the clock edge before each of the last pulses. -/
def SettledAtPulses (k : ℕ) : Prop :=
  ∀ u, LastOfCount ((onChip a).burst s w) k (u + 1) →
    Settled a.dataSigned ((onChip a).burst s w u) (i u) (i (u + 1))
      (reduction a.dataSigned maxSamplesInBits ((onChip a).burst s w) i u)

end Storages

/-- In every cycle of a run both DAQs have stored the same samples if what the reduce mode selects is
settled before the last pulse of each count, and only then. -/
theorem paths_agree_iff {κ μ : Type*} (a : Arguments) (maxSamplesInBits : ℕ) (s s' : State)
    (created : (onChip a).create = .ok s) (createdRam : (inRam a).create = .ok s') (w : ℕ → Input)
    (n : ℕ) (few : n ≤ 2 ^ 20) (room : n ≤ a.dataDepth)
    (short : ∀ t, accepted ((onChip a).burst s w) (fun k => (w k).trigger) (fun _ => false) t →
      acquired a (run a.next s w t).length ≤ n)
    (i : ℕ → Signals a.dataWidth) (m : ℕ) (mode : ∀ k, (i k).reduceMode = m)
    (csr : CsrStorage (a.dataWidth + 1) κ) (port : MemoryPort a.dataWidth a.dataDepth μ)
    (bus : ℕ → Option Word) (register : Register a.dataWidth a.dataDepth κ μ)
    (start : AxiWriter.State) (k : ℕ) :
    (SettledAtPulses a maxSamplesInBits s w i k →
      Agree ((onChip a).burst s w) k a.dataSigned
        (chipCells a maxSamplesInBits s w i csr port bus register k)
        (ramUnits a maxSamplesInBits s' w i start k)) ∧
    (0 < a.dataWidth → a.dataWidth ≤ 64 → 0 < maxSamplesInBits →
      Agree ((onChip a).burst s w) k a.dataSigned
        (chipCells a maxSamplesInBits s w i csr port bus register k)
        (ramUnits a maxSamplesInBits s' w i start k) →
      SettledAtPulses a maxSamplesInBits s w i k) := by
  obtain rfl : s = s' := by
    rw [create_same, created] at createdRam
    exact Except.ok.inj createdRam
  have below := pulse_count_lt created short
  have quiet : ((onChip a).burst s w 0).out = false := (create_off created).2.1
  have agree : Agree ((onChip a).burst s w) k a.dataSigned
      (chipCells a maxSamplesInBits s w i csr port bus register k)
      (ramUnits a maxSamplesInBits s w i start k) ↔ _ :=
    agree_iff (fun u last => memory_last below bus register room last)
      (fun u last => ram_last below start few last)
  -- the value in a cycle is what was selected in the one before
  have shown (u : ℕ) : value a.dataSigned maxSamplesInBits ((onChip a).burst s w) i (u + 1 + 1) =
      ((reduction a.dataSigned maxSamplesInBits ((onChip a).burst s w) i u).next a.dataSigned (i u)
        ((onChip a).burst s w u)).selected (i (u + 1)) := by
    rw [value_succ, reduction_succ]
  have held (u : ℕ) : (i (u + 1)).reduceMode = (i u).reduceMode := by rw [mode, mode]
  rw [agree]
  constructor
  · intro settled u last
    cases u with
    | zero => exact absurd last.pulse (by rw [quiet]; exact Bool.false_ne_true)
    | succ u => rw [shown, value_succ, selected_of_settled (held u) (settled u last)]
  · intro wide narrow counts same u last
    have equal := extend_injective narrow (same (u + 1) last)
    rw [shown, value_succ] at equal
    exact settled_of_selected (held u) wide counts equal

def flat : ℕ → Signals (two none).dataWidth := fun _ => ⟨3, 0, 0, 0, 1⟩

def rise : ℕ → Signals (two none).dataWidth := fun k => ⟨if k = 3 then 1 else 0, 0, 0, 0, 1⟩

def cleared : Register 2 2 (BitVec 3 × Bool) ((ℕ → BitVec 2) × BitVec (adrWidth 2)) :=
  ⟨(0, false), (fun _ => 0, 0), 0, false, false, false, 0, false⟩

theorem paths_agree_flat :
    Agree ((onChip (two none)).burst twoPowerUp once) 8 false
      (chipCells (two none) 20 twoPowerUp once flat (csrStorage 3) (writeFirst 2 2) (fun _ => none)
        cleared 8)
      (ramUnits (two none) 20 twoPowerUp once flat RamWindows.idlePort 8) := by
  have short : ∀ t, accepted ((onChip (two none)).burst twoPowerUp once) (fun k => (once k).trigger)
      (fun _ => false) t → acquired (two none) (run (two none).next twoPowerUp once t).length ≤ 2 := by
    intro t _
    have kept : ∀ u, 0 ≤ u → u < t → Kept (once u) := by
      intro u _ _ length assigned
      cases assigned
    rw [kept_length (Nat.zero_le t) kept]
    decide
  have settled : SettledAtPulses (two none) 20 twoPowerUp once flat 8 := by
    intro u last
    have before := last.before
    have each : ∀ u : Fin 7, ((two none).burst twoPowerUp once (u + 1)).out = true →
        if ((two none).burst twoPowerUp once u).out = true then (3 : BitVec (two none).dataWidth) =
          (reduction false 20 ((two none).burst twoPowerUp once) flat u).valueMax
        else ((two none).burst twoPowerUp once u).busy = true → (3 : ℤ) ≤ number false
          (reduction false 20 ((two none).burst twoPowerUp once) flat u).valueMax := by decide +kernel
    exact each ⟨u, by omega⟩ last.pulse
  exact (paths_agree_iff (two none) 20 twoPowerUp twoPowerUp rfl rfl once 2 (by decide) le_rfl short flat
    1 (fun _ => rfl) (csrStorage 3) (writeFirst 2 2) (fun _ => none) cleared RamWindows.idlePort 8).1
    settled

/-- The memory misses the rise, the RAM does not. -/
theorem paths_agree_counterexample :
    (onChip (two none)).create = .ok twoPowerUp ∧ (inRam (two none)).create = .ok twoPowerUp ∧
      ((onChip (two none)).burst twoPowerUp once 4).out = true ∧
      ((onChip (two none)).burst twoPowerUp once 4).count = 0 ∧
      chipCells (two none) 20 twoPowerUp once rise (csrStorage 3) (writeFirst 2 2) (fun _ => none)
        cleared 8 0 = 0 ∧
      ramUnits (two none) 20 twoPowerUp once rise RamWindows.idlePort 8 (unit 0 0) = 1 ∧
      ¬ Agree ((onChip (two none)).burst twoPowerUp once) 8 false
        (chipCells (two none) 20 twoPowerUp once rise (csrStorage 3) (writeFirst 2 2) (fun _ => none)
          cleared 8)
        (ramUnits (two none) 20 twoPowerUp once rise RamWindows.idlePort 8) := by
  have cell : chipCells (two none) 20 twoPowerUp once rise (csrStorage 3) (writeFirst 2 2)
      (fun _ => none) cleared 8 0 = 0 := by decide +kernel
  have ram : ramUnits (two none) 20 twoPowerUp once rise RamWindows.idlePort 8 (unit 0 0) = 1 := by
    decide +kernel
  have pulse : ((onChip (two none)).burst twoPowerUp once 4).out = true := by decide +kernel
  have label : ((onChip (two none)).burst twoPowerUp once 4).count = 0 := by decide +kernel
  refine ⟨rfl, rfl, pulse, label, cell, ram, ?_⟩
  intro agree
  have same := agree 4 (by decide) pulse
  rw [label, cell, ram] at same
  exact absurd same (by decide)

end Pypga.Modules.StoragePaths
