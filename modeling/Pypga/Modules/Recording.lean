/- GID: Pypga/Modules/Recording
   generality: G
   digest: What a burst of the DAQ leaves in its on-chip memory, or in its window of the RAM. -/

import Mathlib.Tactic.IntervalCases
import Pypga.Core.MemoryRegister
import Pypga.Foundation.LittleEndian
import Pypga.Foundation.StoreSequence
import Pypga.Migen.AxiWriter
import Pypga.Modules.Daq

set_option autoImplicit false
set_option relaxedAutoImplicit false

namespace Pypga.Modules.Recording

open Pypga.Foundation.ClockedMachine (run run_succ)
open Pypga.Foundation.LittleEndian (Word)
open Pypga.Foundation.StoreSequence
open Pypga.Foundation.Waveform (times mem_times times_split times_succ)
open Pypga.Migen.PulseGenerators (BurstGen)
open Pypga.Migen.BurstDecomposition (countdown labels)
open Pypga.Migen
open Pypga.Core.MemoryRegister

variable {α : Type*}

/-- The samples of the pulses in the cycles `lo ≤ u < hi`, in temporal order. -/
def sampled (r : ℕ → BurstGen) (value : ℕ → α) (lo hi : ℕ) : List α :=
  (times (fun u => (r u).out) lo hi).map value

def storeLog (r : ℕ → BurstGen) (value : ℕ → α) (lo hi : ℕ) : List (ℕ × α) :=
  (times (fun u => (r u).out) lo hi).map fun u => ((r u).count, value u)

theorem store_log_eq_zip (r : ℕ → BurstGen) (value : ℕ → α) (lo hi : ℕ) :
    storeLog r value lo (hi + 1) = (labels r lo hi).zip (sampled r value lo (hi + 1)) := by
  rw [labels, sampled, storeLog, List.zip_map']

private theorem store_log_succ (r : ℕ → BurstGen) (value : ℕ → α) {lo hi : ℕ} (after : lo ≤ hi) :
    storeLog r value lo (hi + 1) =
      storeLog r value lo hi ++ if (r hi).out then [((r hi).count, value hi)] else [] := by
  rw [storeLog, times_succ after, List.map_append]
  split <;> rfl

private theorem store_log_split (r : ℕ → BurstGen) (value : ℕ → α) {lo hi : ℕ} (mid : ℕ)
    (left : lo ≤ mid)
    (right : mid ≤ hi) :
    storeLog r value lo hi = storeLog r value lo mid ++ storeLog r value mid hi := by
  rw [storeLog, times_split mid left right, List.map_append]
  rfl

theorem last_store_log {κ β : Type*} [DecidableEq κ] {r : ℕ → BurstGen} (value : ℕ → α) (slot : ℕ → κ)
    (extend : α → β) {lo hi u : ℕ} (after : lo ≤ u) (before : u < hi) (pulse : (r u).out = true)
    (last : ∀ v, u < v → v < hi → (r v).out = true → slot (r v).count ≠ slot (r u).count) :
    lastStore ((storeLog r value lo hi).map fun s => (slot s.1, extend s.2)) (slot (r u).count) =
      some (extend (value u)) := by
  have none : lastStore ((storeLog r value (u + 1) hi).map fun s => (slot s.1, extend s.2))
      (slot (r u).count) = none := by
    apply last_store_eq_none
    intro s member
    obtain ⟨p, inside, rfl⟩ := List.mem_map.mp member
    obtain ⟨v, time, rfl⟩ := List.mem_map.mp inside
    obtain ⟨later, earlier, high⟩ := mem_times.mp time
    exact last v later earlier high
  have here : storeLog r value lo (u + 1) = storeLog r value lo u ++ [((r u).count, value u)] := by
    rw [store_log_succ r value after, if_pos pulse]
  rw [store_log_split r value (u + 1) (by omega) before, here, List.map_append,
    last_store_append, none, List.map_append, last_store_append]
  simp [lastStore]

private theorem countdown_getElem? (n k : ℕ) :
    (countdown n)[k]? = if k ≤ n then some (n - k) else none := by
  induction n generalizing k with
  | zero => cases k <;> rfl
  | succ n ih =>
    cases k with
    | zero => rfl
    | succ k =>
      show (countdown n)[k]? = _
      rw [ih k, Nat.add_sub_add_right]
      simp only [Nat.add_le_add_iff_right]

theorem last_store_countdown {β : Type*} {n : ℕ} {vs : List α} (slot : ℕ → ℕ) (extend : α → β)
    {c : ℕ} (within : c ≤ n) (least : ∀ d ≤ n, slot d = slot c → c ≤ d) {v : α}
    (sample : vs[n - c]? = some v) :
    lastStore (((countdown n).zip vs).map fun s => (slot s.1, extend s.2)) (slot c) =
      some (extend v) := by
  apply last_store_of_getElem (k := n - c)
  · have label : (countdown n)[n - c]? = some c := by
      rw [countdown_getElem?, if_pos (Nat.sub_le n c), Nat.sub_sub_self within]
    have pair : ((countdown n).zip vs)[n - c]? = some (c, v) :=
      List.getElem?_zip_eq_some.mpr ⟨label, sample⟩
    rw [List.getElem?_map, pair]
    rfl
  · intro j s later is same
    rw [List.getElem?_map] at is
    obtain ⟨⟨d, u⟩, pair, rfl⟩ := Option.map_eq_some_iff.mp is
    have label := (List.getElem?_zip_eq_some.mp pair).1
    rw [countdown_getElem?] at label
    split at label
    · have smaller : n - j = d := Option.some.inj label
      have most := least d (by omega) same
      omega
    · cases label

theorem last_store_countdown_eq_none {β : Type*} {n : ℕ} (vs : List α) (slot : ℕ → ℕ)
    (extend : α → β) {x : ℕ} (absent : ∀ d ≤ n, slot d ≠ x) :
    lastStore (((countdown n).zip vs).map fun s => (slot s.1, extend s.2)) x = none := by
  apply last_store_eq_none
  intro s member
  obtain ⟨⟨d, u⟩, inside, rfl⟩ := List.mem_map.mp member
  obtain ⟨k, label⟩ := List.getElem?_of_mem (List.of_mem_zip inside).1
  rw [countdown_getElem?] at label
  split at label
  · have is : n - k = d := Option.some.inj label
    exact absent d (by omega)
  · cases label

section Memory

variable {width depth : ℕ} {κ μ : Type*}
variable (csr : CsrStorage (width + 1) κ) (port : MemoryPort width depth μ)

/-- `data_we`, `data_index` and `data` in one cycle. -/
def plWrite (depth : ℕ) (g : BurstGen) (v : BitVec width) : Option (Write width depth) :=
  if g.out then some (BitVec.ofNat _ g.count, v) else none

def record (r : ℕ → BurstGen) (value : ℕ → BitVec width) (bus : ℕ → Option Word)
    (s : Register width depth κ μ) : ℕ → Register width depth κ μ :=
  run (fun i : Option Word × Option (Write width depth) => edge csr port true i.1 i.2) s
    fun k => (bus k, plWrite depth (r k) (value k))

variable {csr port}

theorem record_mem (r : ℕ → BurstGen) (value : ℕ → BitVec width) (bus : ℕ → Option Word)
    (s : Register width depth κ μ) {lo hi : ℕ} (after : lo ≤ hi)
    (inside : ∀ u, lo ≤ u → u < hi → (r u).out = true → (r u).count < depth) :
    port.mem (record csr port r value bus s hi).memory =
      storeAll (storeLog r value lo hi) (port.mem (record csr port r value bus s lo).memory) := by
  obtain ⟨n, rfl⟩ := Nat.exists_eq_add_of_le after
  induction n with
  | zero =>
    have none : storeLog r value lo (lo + 0) = [] := by simp [storeLog, times]
    rw [none]
    rfl
  | succ n ih =>
    have before := ih (by omega) fun u later earlier => inside u later (by omega)
    rw [← Nat.add_assoc, store_log_succ r value (by omega), store_all_append, ← before]
    have label_inside := inside (lo + n) (by omega) (by omega)
    generalize lo + n = k at *
    show port.mem (port.next _ (if true then plWrite depth (r k) (value k) else _) _) = _
    rw [if_pos rfl, plWrite]
    cases pulse : (r k).out with
    | false => exact port.mem_hold _ _
    | true =>
      have below := label_inside pulse
      have label : (BitVec.ofNat (adrWidth depth) (r k).count).toNat = (r k).count := by
        rw [BitVec.toNat_ofNat, Nat.mod_eq_of_lt (lt_two_pow_adr_width below)]
      rw [if_pos rfl, port.mem_write _ _ _ (by rw [label]; exact below), label]
      rfl

end Memory

section Ram

/-- The default of `_ram_start_address`. -/
def ramStart : ℕ := 0xa000000

/-- The address the AXI writer gets for a count, on the port with this index. -/
def address (axiHpIndex count : ℕ) : ℕ :=
  ((ramStart + axiHpIndex * 0x800000) ||| ((0x2000000 - 1) &&& (count <<< 3))) % 2 ^ 32

/-- The unit of eight bytes with this index behind the base address of the port. -/
def unit (axiHpIndex i : ℕ) : ℕ := (ramStart + axiHpIndex * 0x800000) / 8 + i

def extend {width : ℕ} (signed : Bool) (v : BitVec width) : BitVec 64 :=
  if signed then v.signExtend 64 else v.setWidth 64

def writerInput {width : ℕ} (axiHpIndex : ℕ) (signed : Bool) (ready : AxiWriter.Ready) (g : BurstGen)
    (v : BitVec width) : AxiWriter.Input where
  address := address axiHpIndex g.count
  data := extend signed v
  we := g.out
  ready := ready

theorem writer_input_address {width : ℕ} (axiHpIndex : ℕ) (signed : Bool) (ready : AxiWriter.Ready)
    (g : BurstGen) (v : BitVec width) :
    (writerInput axiHpIndex signed ready g v).address = address axiHpIndex g.count := by
  simp only [writerInput]

def recordRam {width : ℕ} (axiHpIndex : ℕ) (signed : Bool) (ready : ℕ → AxiWriter.Ready)
    (r : ℕ → BurstGen) (value : ℕ → BitVec width) (s : AxiWriter.State) : ℕ → AxiWriter.State :=
  run AxiWriter.next s fun k => writerInput axiHpIndex signed (ready k) (r k) (value k)

variable {width axiHpIndex : ℕ} {signed : Bool} {ready : ℕ → AxiWriter.Ready}

theorem record_ram_succ (r : ℕ → BurstGen) (value : ℕ → BitVec width) (s : AxiWriter.State) (k : ℕ) :
    recordRam axiHpIndex signed ready r value s (k + 1) =
      AxiWriter.next (writerInput axiHpIndex signed (ready k) (r k) (value k))
        (recordRam axiHpIndex signed ready r value s k) :=
  run_succ _ _ _ k

theorem record_ram (r : ℕ → BurstGen) (value : ℕ → BitVec width) (s : AxiWriter.State) {lo hi : ℕ}
    (after : lo ≤ hi) (taken : ∀ u, lo ≤ u → u < hi → (r u).out = true →
      (ready (u + 1)).aw = true ∧ (ready (u + 1)).w = true) :
    (recordRam axiHpIndex signed ready r value s (hi + 1)).ram =
      storeAll ((storeLog r (fun u => value (u + 1)) lo hi).map fun s =>
          (address axiHpIndex s.1 / 8, extend signed s.2))
        (recordRam axiHpIndex signed ready r value s (lo + 1)).ram := by
  obtain ⟨n, rfl⟩ := Nat.exists_eq_add_of_le after
  induction n with
  | zero =>
    have none : storeLog r (fun u => value (u + 1)) lo (lo + 0) = [] := by simp [storeLog, times]
    rw [none, List.map_nil, store_all_nil, Nat.add_zero]
  | succ n ih =>
    have before := ih (by omega) fun u later earlier => taken u later (by omega)
    have here := taken (lo + n) (by omega) (by omega)
    rw [← Nat.add_assoc, store_log_succ r _ (by omega), List.map_append, store_all_append, ← before]
    generalize lo + n = k at here ⊢
    rw [record_ram_succ r value s (k + 1), record_ram_succ r value s k]
    cases pulse : (r k).out with
    | false => rw [AxiWriter.ram_of_silent _ pulse, if_neg Bool.false_ne_true, List.map_nil, store_all_nil]
    | true =>
      obtain ⟨aw, w⟩ := here pulse
      rw [AxiWriter.ram_of_strobe _ pulse aw w, if_pos rfl, List.map_cons, List.map_nil,
        store_all_cons, store_all_nil]
      simp only [writerInput]

theorem masked_count (count : ℕ) : (0x2000000 - 1) &&& (count <<< 3) = 8 * count % 2 ^ 25 := by
  rw [Nat.and_comm, Nat.shiftLeft_eq, Nat.mul_comm]
  exact Nat.and_two_pow_sub_one_eq_mod (2 ^ 3 * count) 25

private theorem address_unit {count : ℕ} (hp : axiHpIndex < 4) (few : count < 2 ^ 22) :
    address axiHpIndex count / 8 =
      unit 0 (2 ^ 20 * (axiHpIndex ||| count / 2 ^ 20) + count % 2 ^ 20) := by
  have masked : (0x2000000 - 1) &&& (count <<< 3) = 2 ^ 23 * (count / 2 ^ 20) + 8 * (count % 2 ^ 20) := by
    rw [masked_count]
    omega
  have low : 8 * (count % 2 ^ 20) < 2 ^ 23 := by omega
  have base : ramStart + axiHpIndex * 0x800000 = 2 ^ 23 * (20 + axiHpIndex) := by
    rw [ramStart]
    omega
  have high : (2 ^ 23 * (20 + axiHpIndex)) ||| (2 ^ 23 * (count / 2 ^ 20)) =
      2 ^ 23 * ((20 + axiHpIndex) ||| count / 2 ^ 20) := by
    simp only [Nat.mul_comm (2 ^ 23), ← Nat.shiftLeft_eq, Nat.shiftLeft_or_distrib]
  have index : (20 + axiHpIndex) ||| count / 2 ^ 20 = 20 + (axiHpIndex ||| count / 2 ^ 20) := by
    have small : count / 2 ^ 20 < 4 := by omega
    generalize count / 2 ^ 20 = q at small
    interval_cases axiHpIndex <;> interval_cases q <;> rfl
  rw [address, masked, base, Nat.two_pow_add_eq_or_of_lt low, ← Nat.or_assoc, high, index,
    ← Nat.two_pow_add_eq_or_of_lt low, unit, ramStart]
  have bound : (axiHpIndex ||| count / 2 ^ 20) < 2 ^ 2 :=
    Nat.or_lt_two_pow hp (show count / 2 ^ 20 < 2 ^ 2 by omega)
  omega

theorem address_mod (axiHpIndex count : ℕ) : address axiHpIndex count % 2 ^ 23 = 8 * (count % 2 ^ 20) := by
  have base : (ramStart + axiHpIndex * 0x800000) % 2 ^ 23 = 0 := by
    rw [ramStart]
    omega
  have masked : ((0x2000000 - 1) &&& (count <<< 3)) % 2 ^ 23 = 8 * (count % 2 ^ 20) := by
    rw [masked_count]
    omega
  have word : (2 ^ 23 : ℕ) ∣ 2 ^ 32 := by decide
  rw [address, Nat.mod_mod_of_dvd _ word, Nat.or_mod_two_pow, base, masked, Nat.zero_or]

def Gap (axiHpIndex i : ℕ) : Prop := axiHpIndex = 1 ∧ i / 2 ^ 20 = 1

instance (axiHpIndex i : ℕ) : Decidable (Gap axiHpIndex i) := inferInstanceAs (Decidable (_ ∧ _))

section Labels

variable {i d : ℕ} (ports : axiHpIndex < 4) (few : d < 2 ^ 22)
include ports few

private theorem unit_of_label :
    (address axiHpIndex d / 8 = unit axiHpIndex i ↔
      (axiHpIndex ||| d / 2 ^ 20) = axiHpIndex + i / 2 ^ 20 ∧ d % 2 ^ 20 = i % 2 ^ 20) := by
  rw [address_unit ports few]
  simp only [unit, ramStart]
  constructor
  · intro same
    omega
  · rintro ⟨high, low⟩
    omega

variable (room : 2 ^ 20 * axiHpIndex + i < 2 ^ 22)
include room

theorem unit_of_gap (gap : Gap axiHpIndex i) : address axiHpIndex d / 8 ≠ unit axiHpIndex i := by
  have apart : ∀ q < 4, (1 ||| q) ≠ 2 := by decide
  obtain ⟨rfl, second⟩ := gap
  rw [Ne, unit_of_label ports few, second]
  rintro ⟨high, -⟩
  exact apart (d / 2 ^ 20) (by omega) high

theorem label_of_unit (solid : ¬ Gap axiHpIndex i) :
    address axiHpIndex i / 8 = unit axiHpIndex i ∧
      (address axiHpIndex d / 8 = unit axiHpIndex i → i ≤ d) := by
  have bits : ∀ h q j : Fin 4, h.val + j.val < 4 → (h.val = 1 → j.val ≠ 1) →
      (h.val ||| j.val) = h.val + j.val ∧ ((h.val ||| q.val) = h.val + j.val → j.val ≤ q.val) := by
    decide
  obtain ⟨own, least⟩ := bits ⟨axiHpIndex, ports⟩ ⟨d / 2 ^ 20, by omega⟩ ⟨i / 2 ^ 20, by omega⟩
    (show axiHpIndex + i / 2 ^ 20 < 4 by omega) fun first second => solid ⟨first, second⟩
  rw [unit_of_label ports few, unit_of_label ports (show i < 2 ^ 22 by omega)]
  refine ⟨⟨own, rfl⟩, ?_⟩
  rintro ⟨high, low⟩
  have quotient : i / 2 ^ 20 ≤ d / 2 ^ 20 := least high
  omega

end Labels

end Ram

end Pypga.Modules.Recording
