/- GID: Pypga/Modules/TimeOrder
   generality: G
   digest: The DAQ data are read newest first, on both storage paths. -/

import Pypga.Modules.AcquisitionLength
import Pypga.Modules.DataAttribute

set_option autoImplicit false
set_option relaxedAutoImplicit false

namespace Pypga.Modules.TimeOrder

open Pypga.Foundation.LittleEndian (Word)
open Pypga.Foundation.StoreSequence
open Pypga.Foundation.Waveform (times mem_times times_split times_eq_nil)
open Pypga.Migen
open Pypga.Migen.BurstDecomposition (countdown labels)
open Pypga.Migen.BurstWindows
open Pypga.Core.ArrayAttribute
open Pypga.Core.MemoryRegister
open Pypga.Core.Registers
open Pypga.Core.MountedRegister
open Pypga.Core.RemoteInterface (Succeeds succeeds_reads_iff)
open Pypga.Remote.MonitorServer (Bus latch)
open Pypga.Modules.Daq
open Pypga.Modules.AcquisitionLength (samples)
open Pypga.Modules.Recording
open Pypga.Modules.DataAttribute

variable {a : Arguments}

section Bursts

variable {s : State} (created : a.create = .ok s) {w : ℕ → Input} {t e : ℕ}
variable (window : Window (a.burst s w) (fun k => (w k).trigger) t e)
variable {n : ℕ} (full : samples (a.burst s w) t e = n)
include full

theorem sampled_length {α : Type*} (value : ℕ → α) :
    (sampled (a.burst s w) value (t + 1) (e + 1)).length = n := by
  rw [sampled, List.length_map]
  exact full

include created window

private theorem labels_full : labels (a.burst s w) (t + 1) e = countdown (n - 1) := by
  rw [burst_run] at window full ⊢
  have all := window_labels (fun _ => rfl) (create_idle created).1 window
  have size := congrArg List.length all
  rw [labels, List.length_map, countdown_length] at size
  rw [samples, size] at full
  rw [all, ← full, Nat.add_sub_cancel]

variable {k : ℕ} (after : e < k) (quiet : ∀ u, e < u → u < k → (a.burst s w u).out = false)
include quiet

private theorem label_lt (deep : 0 < n) (u : ℕ) (later : t + 1 ≤ u) (before : u < k)
    (pulse : (a.burst s w u).out = true) : (a.burst s w u).count < n := by
  have inside : u ≤ e := by
    by_contra beyond
    rw [quiet u (by omega) before] at pulse
    cases pulse
  have member : (a.burst s w u).count ∈ labels (a.burst s w) (t + 1) e :=
    List.mem_map_of_mem (mem_times.mpr ⟨later, by omega, pulse⟩)
  rw [labels_full created window full, mem_countdown] at member
  omega

include after

private theorem store_log_full {α : Type*} (value : ℕ → α) :
    storeLog (a.burst s w) value (t + 1) k =
      (countdown (n - 1)).zip (sampled (a.burst s w) value (t + 1) (e + 1)) := by
  have before := window.after
  have pulses : times (fun u => (a.burst s w u).out) (t + 1) k =
      times (fun u => (a.burst s w u).out) (t + 1) (e + 1) := by
    rw [times_split (e + 1) (by omega) after, times_eq_nil fun u later earlier => quiet u later earlier,
      List.append_nil]
  rw [← labels_full created window full, ← store_log_eq_zip, storeLog, pulses]
  rfl

variable (deep : 0 < n)
include deep

theorem memory_entry {κ μ : Type*} {csr : CsrStorage (a.dataWidth + 1) κ}
    {port : MemoryPort a.dataWidth a.dataDepth μ} (value : ℕ → BitVec a.dataWidth)
    (bus : ℕ → Option Word) (register : Register a.dataWidth a.dataDepth κ μ) {x : ℕ}
    (inside : x < n) (room : n ≤ a.dataDepth) :
    port.mem (record csr port (a.burst s w) value bus register k).memory x =
      (sampled (a.burst s w) value (t + 1) (e + 1)).getD (n - 1 - x) 0 := by
  have before := window.after
  have stored := store_log_full created window full after quiet value
  have place : n - 1 - x < (sampled (a.burst s w) value (t + 1) (e + 1)).length := by
    rw [sampled_length full]
    omega
  have last := last_store_countdown id id (show x ≤ n - 1 by omega)
    (fun d _ same => le_of_eq same.symm) (List.getElem?_eq_getElem place)
  have same : (List.map (fun p : ℕ × BitVec a.dataWidth => (id p.1, id p.2))
      ((countdown (n - 1)).zip (sampled (a.burst s w) value (t + 1) (e + 1)))) =
      (countdown (n - 1)).zip (sampled (a.burst s w) value (t + 1) (e + 1)) := List.map_id _
  rw [same, ← stored] at last
  rw [record_mem (a.burst s w) value bus register (show t + 1 ≤ k by omega)
    (fun u later before pulse =>
      (label_lt created window full quiet deep u later before pulse).trans_le room), store_all_eq, List.getD_eq_getElem _ _ place]
  exact congrArg (fun o => Option.getD o _) last

private theorem ram_unit {h : ℕ} (ports : h < 4) {ready : ℕ → AxiWriter.Ready}
    (taken : ∀ u, t < u → u ≤ e → (a.burst s w u).out = true →
      (ready (u + 1)).aw = true ∧ (ready (u + 1)).w = true)
    (value : ℕ → BitVec a.dataWidth) (start : AxiWriter.State)
    (room : h * 2 ^ 23 + 8 * n ≤ 2 ^ 25) {i : ℕ} (inside : i < n) :
    (recordRam h a.dataSigned ready (a.burst s w) value start (k + 1)).ram (unit h i) =
      if Gap h i then
        (recordRam h a.dataSigned ready (a.burst s w) value start (t + 2)).ram (unit h i)
      else extend a.dataSigned
        ((sampled (a.burst s w) (fun u => value (u + 1)) (t + 1) (e + 1)).getD
          (n - 1 - i) 0) := by
  have before := window.after
  have place : n - 1 - i <
      (sampled (a.burst s w) (fun u => value (u + 1)) (t + 1) (e + 1)).length := by
    rw [sampled_length full]
    omega
  rw [record_ram (a.burst s w) value start (show t + 1 ≤ k by omega), store_all_eq,
    store_log_full created window full after quiet, List.getD_eq_getElem _ _ place]
  · split
    · rename_i gap
      have nothing := last_store_countdown_eq_none
        (sampled (a.burst s w) (fun u => value (u + 1)) (t + 1) (e + 1))
        (fun c => address h c / 8) (extend a.dataSigned) fun d (few : d ≤ n - 1) =>
          unit_of_gap ports (by omega) (by omega) gap
      rw [nothing]
      rfl
    · rename_i solid
      have own := (label_of_unit ports (show i < 2 ^ 22 by omega) (by omega) solid).1
      have last := last_store_countdown (fun c => address h c / 8) (extend a.dataSigned)
        (show i ≤ n - 1 by omega) (fun d few same =>
          (label_of_unit ports (by omega) (by omega) solid).2 (same.trans own))
        (List.getElem?_eq_getElem place)
      simp only [own] at last
      rw [last]
      rfl
  · intro u later earlier pulse
    apply taken u later _ pulse
    by_contra beyond
    rw [quiet u (by omega) earlier] at pulse
    cases pulse

end Bursts

/-- The client reads all the entries, and the samples under the indices that it writes decode as
the samples in temporal order. -/
def MemoryOrdered (a : Arguments) (vs : List (BitVec a.dataWidth)) : Prop :=
  a.dataDepth ≤ 65535 ∧ ∀ i < a.dataDepth,
    decoded a (vs.getD i 0) = decoded a (vs.getD (a.dataDepth - 1 - i % 2 ^ a.dataWidth) 0)

/-- The client reads all the units of the port, they are mapped, and the samples under their
labels, or what was in a gap before, decode as the samples in temporal order. -/
def RamOrdered (a : Arguments) (h : ℕ) (vs : List (BitVec a.dataWidth)) (before : ℕ → BitVec 64) :
    Prop :=
  2 * a.dataDepth < 2 ^ 23 ∧ h * 2 ^ 23 + 8 * a.dataDepth ≤ 2 ^ 25 ∧ ∀ i < a.dataDepth,
    decoded a (vs.getD i 0) = a.data.toPythonElement
      ((if Gap h i then before (unit h i)
        else extend a.dataSigned (vs.getD (a.dataDepth - 1 - i) 0)).setWidth 32).toNat

section Palindromes

private theorem reverse_map_eq_iff {β γ : Type*} (default : β) {vs : List β} {n : ℕ}
    (full : vs.length = n)
    (f : β → γ) :
    (vs.map f).reverse = vs.map f ↔
      ∀ i < n, f (vs.getD i default) = f (vs.getD (n - 1 - i) default) := by
  have backwards : (vs.map f).reverse =
      (List.range n).map fun i => f (vs.getD (n - 1 - i) default) := by
    apply List.ext_getElem
    · simp [full]
    · intro i left right
      rw [List.length_map, List.length_range] at right
      rw [List.getElem_reverse, List.getElem_map, List.getElem_map, List.getElem_range,
        List.getD_eq_getElem _ _ (by omega)]
      simp only [List.length_map, full]
  rw [backwards, map_range_eq_iff default full]
  exact forall_congr' fun i => imp_congr_right fun _ => eq_comm

variable {vs : List (BitVec a.dataWidth)} (full : vs.length = a.dataDepth)
include full

theorem memory_ordered_iff (indices : a.dataDepth ≤ 2 ^ a.dataWidth) :
    MemoryOrdered a vs ↔
      a.dataDepth ≤ 65535 ∧ (vs.map (decoded a)).reverse = vs.map (decoded a) := by
  rw [MemoryOrdered, reverse_map_eq_iff 0 full]
  apply and_congr_right
  intro _
  constructor
  · intro each i inside
    rw [each i inside, Nat.mod_eq_of_lt (by omega)]
  · intro each i inside
    rw [each i inside, Nat.mod_eq_of_lt (by omega)]

theorem ram_ordered_iff {h : ℕ} (hp : a.axiHpIndex = some h) (ports : h < 4)
    (narrow : a.dataWidth ≤ 32) (few : a.dataDepth ≤ 2 ^ 20) (before : ℕ → BitVec 64) :
    RamOrdered a h vs before ↔ (vs.map (decoded a)).reverse = vs.map (decoded a) := by
  have width : a.data.readWidth = 32 := by
    have area : a.data.ramOffset = a.axiHpIndex.map (· * 0x800000) := rfl
    rw [NumberRegister.readWidth, area, hp]
    rfl
  have solid (i : ℕ) (inside : i < a.dataDepth) : ¬ Gap h i := by
    rintro ⟨-, second⟩
    omega
  rw [RamOrdered, reverse_map_eq_iff 0 full]
  constructor
  · rintro ⟨-, -, each⟩ i inside
    rw [each i inside, if_neg (solid i inside), decoded_unit width narrow]
  · intro each
    refine ⟨by omega, by omega, ?_⟩
    intro i inside
    rw [each i inside, if_neg (solid i inside), decoded_unit width narrow]

end Palindromes

/-- The samples of a burst as long as the data are read in temporal order only if what is read
under every index, the samples of the opposite order, decodes as the samples do. -/
theorem data_in_order_iff {κ μ ρ : Type*} (a : Arguments) (deep : 2 ≤ a.dataDepth) (s : State)
    (created : a.create = .ok s) (w : ℕ → Input) (t e k : ℕ)
    (window : Window (a.burst s w) (fun k => (w k).trigger) t e)
    (full : samples (a.burst s w) t e = a.dataDepth) (after : e < k)
    (quiet : ∀ u, e < u → u < k → (a.burst s w u).out = false)
    (value : ℕ → BitVec a.dataWidth) (address : Word) (rest : Bus ρ) (others : ρ)
    (buffer : ℕ → Word) :
    (∀ (csr : CsrStorage (a.dataWidth + 1) κ) (port : MemoryPort a.dataWidth a.dataDepth μ)
      (bus : ℕ → Option Word) (register : Register a.dataWidth a.dataDepth κ μ) (late : ℕ → ℕ),
      a.axiHpIndex = none → a.dataWidth ≤ 31 →
      (InOrder a (mount csr port true address rest) address buffer
          ⟨record csr port (a.burst s w) value bus register k, late, others⟩
          (sampled (a.burst s w) value (t + 1) (e + 1)) ↔
        MemoryOrdered a (sampled (a.burst s w) value (t + 1) (e + 1)))) ∧
    ∀ (h : ℕ) (ready : ℕ → AxiWriter.Ready) (start : AxiWriter.State), a.axiHpIndex = some h →
      (∀ u, t < u → u ≤ e → (a.burst s w u).out = true →
        (ready (u + 1)).aw = true ∧ (ready (u + 1)).w = true) →
      (InOrder a (withRam ramStart rest) address buffer
          (others, (recordRam h a.dataSigned ready (a.burst s w) value start (k + 1)).ram)
          (sampled (a.burst s w) (fun u => value (u + 1)) (t + 1) (e + 1)) ↔
        RamOrdered a h (sampled (a.burst s w) (fun u => value (u + 1)) (t + 1) (e + 1))
          (recordRam h a.dataSigned ready (a.burst s w) value start (t + 2)).ram) := by
  have positive : 0 < a.dataDepth := by omega
  constructor
  · intro csr port bus register late memory narrow
    rw [in_order_memory (sampled_length full value) memory narrow deep, MemoryOrdered]
    apply and_congr_right
    intro _
    apply forall_congr'
    intro i
    apply imp_congr_right
    intro inside
    rw [memory_entry created window full after quiet positive value bus register
      (lt_of_le_of_lt (Nat.mod_le i _) inside) le_rfl]
    exact eq_comm
  · intro h ready start hp taken
    have ports : h < 4 := port_of_create created hp
    rw [in_order_ram (sampled_length full _) hp ports, RamOrdered]
    apply and_congr_right
    intro _
    apply and_congr_right
    intro room
    apply forall_congr'
    intro i
    apply imp_congr_right
    intro inside
    dsimp only
    rw [ram_unit created window full after quiet positive ports taken value start room inside]
    exact eq_comm

def two (axiHpIndex : Option ℕ) : Arguments where
  dataDepth := 2
  dataWidth := 2
  dataDecimals := 1
  samplingPeriodWidth := 4
  defaultSamplingPeriod := 3
  dataSigned := false
  axiHpIndex := axiHpIndex

def twoPowerUp : State := ⟨2, 1, ⟨⟨false, 0, false⟩, false, false, 0, false⟩⟩

def once : ℕ → Input := fun k => ⟨k == 0, none⟩

theorem two_window (axiHpIndex : Option ℕ) :
    (two axiHpIndex).create = (if axiHpIndex.all (· < 4) then .ok twoPowerUp
      else .error "Only 4 AXI_HP ports are available") ∧
    Window ((two axiHpIndex).burst twoPowerUp once) (fun k => (once k).trigger) 0 6 ∧
    samples ((two axiHpIndex).burst twoPowerUp once) 0 6 = 2 ∧
    ∀ u, 6 < u → u < 8 → ((two axiHpIndex).burst twoPowerUp once u).out = false := by
  have same : (two axiHpIndex).burst twoPowerUp once = (two none).burst twoPowerUp once := rfl
  have first : ∀ u < 6, 0 < u → ¬ (((two none).burst twoPowerUp once u).pulsegen.out = true ∧
      ((two none).burst twoPowerUp once u).count = 0) := by decide +kernel
  rw [same]
  refine ⟨rfl, ⟨⟨rfl, rfl, .inl rfl⟩, by decide, ⟨rfl, rfl⟩, fun u later before => first u before later⟩,
    rfl, ?_⟩
  intro u later before
  obtain rfl : u = 7 := by omega
  rfl

section Two

variable (value : ℕ → BitVec 2)

def twoSamples : List (BitVec 2) := sampled ((two none).burst twoPowerUp once) value 1 7

def twoBoard : Board 2 2 (BitVec 3 × Bool) ((ℕ → BitVec 2) × BitVec (adrWidth 2)) Word where
  register := record (csrStorage 3) (writeFirst 2 2) ((two none).burst twoPowerUp once) value
    (fun _ => none) ⟨(0, false), (fun _ => 0, 0), 0, false, false, false, 0, false⟩ 8
  late := fun _ => 0
  rest := 0

def twoRam : Word × (ℕ → BitVec 64) :=
  (0, (recordRam 1 false (fun _ => ⟨true, true⟩) ((two (some 1)).burst twoPowerUp once) value
    ⟨0, ⟨false, false⟩, fun _ => 0⟩ 9).ram)

end Two

theorem data_in_order_constant :
    twoSamples (fun _ => 3) = [3, 3] ∧
      InOrder (two none) (mount (csrStorage 3) (writeFirst 2 2) true 0x40000000 latch) 0x40000000
        (fun _ => 0) (twoBoard fun _ => 3) (twoSamples fun _ => 3) ∧
      InOrder (two (some 1)) (withRam ramStart latch) 0x40000000 (fun _ => 0) (twoRam fun _ => 3)
        (twoSamples fun _ => 3) := by
  obtain ⟨created, window, full, quiet⟩ := two_window none
  obtain ⟨createdRam, windowRam, fullRam, quietRam⟩ := two_window (some 1)
  refine ⟨by decide +kernel, ?_, ?_⟩
  · have path := (data_in_order_iff (two none) le_rfl twoPowerUp created once 0 6 8 window full
      (by decide) quiet (fun _ => (3 : BitVec 2)) 0x40000000 latch 0 (fun _ => 0)).1 (csrStorage 3)
      (writeFirst 2 2) (fun _ => none) ⟨(0, false), (fun _ => 0, 0), 0, false, false, false, 0, false⟩
      (fun _ => 0) rfl (by decide)
    exact path.mpr ⟨by decide, by decide +kernel⟩
  · have path := (data_in_order_iff (κ := ℕ) (μ := ℕ) (two (some 1)) le_rfl twoPowerUp createdRam
      once 0 6 8 windowRam fullRam (by decide) quietRam (fun _ => (3 : BitVec 2)) 0x40000000 latch 0
      (fun _ => 0)).2 1 (fun _ => ⟨true, true⟩) ⟨0, ⟨false, false⟩, fun _ => 0⟩ rfl
      (fun _ _ _ _ => ⟨rfl, rfl⟩)
    exact path.mpr ⟨by decide, by decide, by decide +kernel⟩

/-- The samples one and two are read as two and one. -/
theorem data_in_order_counterexample :
    twoSamples (fun u => if u < 3 then 1 else 2) = [1, 2] ∧
      ¬ InOrder (two none) (mount (csrStorage 3) (writeFirst 2 2) true 0x40000000 latch) 0x40000000
        (fun _ => 0) (twoBoard fun u => if u < 3 then 1 else 2) [1, 2] ∧
      ¬ InOrder (two (some 1)) (withRam ramStart latch) 0x40000000 (fun _ => 0)
        (twoRam fun u => if u < 3 then 1 else 2) [1, 2] ∧
      Succeeds (mount (csrStorage 3) (writeFirst 2 2) true 0x40000000 latch)
        (readOp (two none).data 0x40000000) (fun _ => 0)
        (twoBoard fun u => if u < 3 then 1 else 2) (.words [2, 1]) ∧
      arrayValue (two none).data [2, 1] = .ok [.finite 2, .finite 1] := by
  refine ⟨by decide +kernel, ?_, ?_, ?_, by decide +kernel⟩
  · intro inOrder
    have each := ((in_order_memory (a := two none) rfl rfl (by decide) le_rfl _).mp inOrder).2
    exact absurd (each 0 (by decide)) (by decide +kernel)
  · intro inOrder
    have each := ((in_order_ram (a := two (some 1)) rfl rfl (by decide) _).mp inOrder).2.2
    exact absurd (each 0 (by decide)) (by decide +kernel)
  · exact succeeds_reads_iff.mpr (by decide +kernel)

end Pypga.Modules.TimeOrder
