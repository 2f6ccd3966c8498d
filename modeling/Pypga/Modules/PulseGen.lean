/- GID: Pypga/Modules/PulseGen
   generality: G
   digest: The pulse generator module pulses with the period that a session has assigned. -/

import Pypga.Core.AssignedValues
import Pypga.Core.ClockedBoard
import Pypga.Migen.PulseRetuning
import Pypga.Modules.SamplingPeriod

set_option autoImplicit false
set_option relaxedAutoImplicit false

namespace Pypga.Modules.PulseGen

open Pypga.Foundation.FixedWidth
open Pypga.Foundation.LittleEndian (Word)
open Pypga.Remote.MonitorServer (Bus)
open Pypga.Remote.Connection (Config Label)
open Pypga.Migen.Operands (getLength)
open Pypga.Migen.PulseGenerators
open Pypga.Migen.PulseRetuning
open Pypga.Core.Registers (BoolRegister NumberRegister)
open Pypga.Core.WordEncoding (AnyRegister)
open Pypga.Core.OffsetLaw (Converts InRange)
open Pypga.Core.RegisterNames (Instance Register Listing CsrMap)
open Pypga.Core.RemoteInterface (Complete)
open Pypga.Core.RegisterFile
open Pypga.Core.RegisterSessions
open Pypga.Core.AssignedValues
open Pypga.Core.ClockedBoard

/-- The arguments of `PulseGen`. -/
structure Arguments where
  defaultPeriod : ℤ := 8
  defaultOn : Bool := true
  highAfterOn : Bool := true
  periodWidth : ℕ := 32

namespace Arguments

variable (a : Arguments)

def period : NumberRegister where
  width := a.periodWidth
  default := some (a.defaultPeriod - 2)
  offsetFromPython := -2
  min := some 2

def on : BoolRegister where
  default := some a.defaultOn.toNat

def pulsegen : PulseGenConfig where
  period := .signal a.periodWidth (a.defaultPeriod - 2)
  highAfterOn := a.highAfterOn
  firstCyclePeriodOffset := 0

end Arguments

def out : BoolRegister where
  default := some 0
  readonly := true

/-- The instance `i` in a design is such a module: its registers, and its generator, which sees
their signals in every cycle and gives its output to the register `out`. -/
structure Contains {kind : Register → Kind} {σ : Type*} (h : Hardware kind σ) (a : Arguments)
    (i : Instance) (generator : σ → Migen.PulseGenerators.PulseGen) : Prop where
  period : kind ⟨i, "period"⟩ = .value (.number a.period)
  on : kind ⟨i, "on"⟩ = .value (.bool a.on)
  out : kind ⟨i, "out"⟩ = .value (.bool out)
  next : ∀ storage written s, generator (h.next storage written s) =
    a.pulsegen.next (a.period.signal (storage ⟨i, "period"⟩).toNat)
      (decide ((storage ⟨i, "on"⟩).toNat ≠ 0)) (generator s)
  status : ∀ s, (h.status s ⟨i, "out"⟩).toNat = (generator s).out.toNat

section Module

variable {kind : Register → Kind} {σ : Type*} {h : Hardware kind σ} {a : Arguments} {i : Instance}
  {generator : σ → Migen.PulseGenerators.PulseGen} (contains : Contains h a i generator)
include contains

section Storages

private theorem idle_held {storage : Storages kind} {period : ℤ}
    (same : a.period.signal (storage ⟨i, "period"⟩).toNat = period)
    (enabled : (storage ⟨i, "on"⟩).toNat ≠ 0) (s : σ) (n : ℕ) :
    generator (h.idle storage s n) = held a.pulsegen period (generator s) n := by
  induction n with
  | zero => rfl
  | succ n ih =>
    have edge : held a.pulsegen period (generator s) (n + 1) =
      a.pulsegen.next period true (held a.pulsegen period (generator s) n) := rfl
    rw [Hardware.idle_succ, contains.next, ih, same, decide_eq_true enabled, edge]

omit contains in
private theorem period_holds {P : ℕ} (least : 2 ≤ P) (most : P < 2 ^ (a.periodWidth - 1)) :
    Holds (.number a.period) P := by
  have range : (P : ℤ) < 2 ^ (a.periodWidth - 1) := by exact_mod_cast most
  have signed : a.period.signed = true := rfl
  have inside {x : ℤ} (nonneg : 0 ≤ x) (small : x ≤ P) : InRange a.period x := by
    refine ⟨?_, ?_⟩
    · rw [NumberRegister.intMin, if_pos signed]
      show -2 ^ (a.periodWidth - 1) ≤ x
      omega
    · rw [NumberRegister.intMax, if_pos signed]
      show x ≤ 2 ^ (a.periodWidth - 1) - 1
      omega
  have offset : a.period.offsetFromPython = -2 := rfl
  refine ⟨?_, P, (Int.cast_natCast P).symm, inside (by omega) le_rfl, ⟨?_, ?_⟩, ?_, ?_⟩
  · show 1 ≤ a.periodWidth
    by_contra none
    rw [Nat.lt_one_iff.mp (Nat.not_le.mp none)] at most
    omega
  · intro limit is
    obtain rfl : 2 = limit := Option.some.inj is
    exact_mod_cast least
  · intro limit is
    cases is
  · rw [offset]
    exact inside (by omega) (by omega)
  · rw [offset]
    omega

private theorem period_value {storage : Storages kind} {P : ℕ} (least : 2 ≤ P)
    (most : P < 2 ^ (a.periodWidth - 1))
    (stored : storage ⟨i, "period"⟩ = BitVec.ofInt _ ((AnyRegister.number a.period).encoded P)) :
    trunc (getLength a.pulsegen.period) (a.period.signal (storage ⟨i, "period"⟩).toNat) = P - 2 := by
  have width : (kind ⟨i, "period"⟩).width = a.periodWidth := by rw [contains.period]; rfl
  have assigned : (storage ⟨i, "period"⟩).toNat = P - 2 := by
    rw [stored, BitVec.toNat_ofInt, width]
    exact (SamplingPeriod.period_assigned (a.defaultPeriod - 2) least most).1
  rw [assigned]
  exact SamplingPeriod.period_counted (a.defaultPeriod - 2) least most (a.defaultPeriod - 2)

private theorem on_value {storage : Storages kind} {v : ℚ} (true : v ≠ 0)
    (stored : storage ⟨i, "on"⟩ = BitVec.ofInt _ ((AnyRegister.bool a.on).encoded v)) :
    (storage ⟨i, "on"⟩).toNat ≠ 0 := by
  have width : (kind ⟨i, "on"⟩).width = 1 := by rw [contains.on]; rfl
  have one : Core.Registers.pyInt 1 = 1 := by exact_mod_cast Core.Registers.py_int_cast 1
  have word : (AnyRegister.bool a.on).encoded v = 1 := by
    simp [AnyRegister.encoded, BoolRegister.fromPython, Arguments.on,
      Core.Registers.Register.fromPython, true, one]
  rw [stored, BitVec.toNat_ofInt, width, word]
  decide

end Storages

section Sessions

variable {rs : List Register} {l : Listing rs} (addressed : Addressed kind l)
  (rest : Bus (σ × (ℕ → ℕ))) {uint32 : ℤ → Option Word} (converts : Converts uint32)
variable {buffer : ℕ → Word} {m : Machine kind (σ × (ℕ → ℕ))} {labels : List Label}
  {c : Config (Machine kind (σ × (ℕ → ℕ)))}
include addressed converts

/-- After a session the generator finishes the countdown it is in, and from then on it pulses every
`P` cycles, where `P` is the period that was assigned last, as long as the switch is on. -/
theorem pulses_after_session {before between : List Statement} {P : ℕ}
    (inside : ∀ s ∈ before ++ .set ⟨i, "period"⟩ P :: between,
      s.register ∈ rs ∧ (kind s.register).scalar = true)
    (kept : ∀ s ∈ between, ∀ u, s ≠ .set ⟨i, "period"⟩ u)
    (least : 2 ≤ P) (most : P < 2 ^ (a.periodWidth - 1))
    (enabled : ∃ v ≠ 0, lastAssigned uint32 (.bool a.on) ⟨i, "on"⟩
      (before ++ .set ⟨i, "period"⟩ P :: between) = some v)
    (fits : Fits a.pulsegen (generator m.logic.1))
    (complete : Complete (csrBus rs (word l) h.logic rest)
      (clientOps kind uint32 (CsrMap.load l.rows) (before ++ .set ⟨i, "period"⟩ P :: between))
        buffer m labels c) :
    ∃ first, 1 ≤ first ∧ first ≤ 2 ^ a.periodWidth + 1 ∧ ∀ n, 0 < n →
      ((generator (h.idle c.server.device.storage c.server.device.logic.1 n)).out = true ↔
        first ≤ n ∧ P ∣ n - first) := by
  obtain ⟨-, device⟩ := complete_session addressed h.logic rest converts inside complete
  have period := storage_last h.logic uint32 contains.period rfl
    (before ++ .set ⟨i, "period"⟩ P :: between) m
  have on := storage_last h.logic uint32 contains.on rfl
    (before ++ .set ⟨i, "period"⟩ P :: between) m
  have taken : (uint32 ((AnyRegister.number a.period).encoded P)).isSome = true := by
    obtain ⟨member, scalar⟩ := inside _ (List.mem_append_right before List.mem_cons_self)
    have width : (kind ⟨i, "period"⟩).width = a.periodWidth := by rw [contains.period]; rfl
    have narrow : (2 : ℤ) ^ a.periodWidth ≤ 2 ^ 32 := by
      rw [← width]
      exact pow_le_pow_right₀ (by decide) (addressed.narrow _ member scalar)
    obtain ⟨nonneg, small⟩ := (returns_of_holds rfl (period_holds least most)).word
    rw [converts.fits _ nonneg (small.trans_le narrow)]
    rfl
  rw [last_assigned_kept taken kept, ← device] at period
  obtain ⟨v, true, last⟩ := enabled
  rw [last, ← device] at on
  have counted : Fits a.pulsegen (generator c.server.device.logic.1) := by
    rw [device]
    apply Hardware.session_invariant (fun s => Fits a.pulsegen (generator s)) _ uint32 _ fits
    intro storage written s _
    rw [contains.next]
    exact fits_next _ _
  have value := period_value contains least most period
  have switched := on_value contains true on
  refine ⟨delay (generator c.server.device.logic.1), delay_pos _, ?_, ?_⟩
  · have wide : getLength a.pulsegen.period ≤ a.periodWidth := by
      show (if a.periodWidth < 1 then 1 else a.periodWidth) ≤ a.periodWidth
      split
      · rename_i none
        rw [Nat.lt_one_iff.mp none] at most
        omega
      · exact le_rfl
    have bound := Nat.pow_le_pow_right (show 0 < 2 by decide) wide
    unfold Fits at counted
    unfold delay
    split <;> omega
  · intro n later
    rw [idle_held contains rfl switched, retuned_schedule value counted later, Nat.sub_add_cancel least]

end Sessions

end Module

section Blinker

def blinker : Core.RegisterNames.ModuleClass :=
  .branch "blinker" (.leaf "period" <| .leaf "on" <| .leaf "out" .empty) .empty

def instance₀ : Instance := .sub "blinker" (.top "top")

def blinkerKind (r : Register) : Kind :=
  if r.name = "period" then .value (.number (Arguments.period {}))
  else if r.name = "on" then .value (.bool (Arguments.on {}))
  else .value (.bool out)

def blinkerFile : Listing (Core.RegisterNames.registers blinker (.top "top")) := Listing.consecutive _

private theorem blinker_addressed : Addressed blinkerKind blinkerFile := by
  refine ⟨?_, by decide, by decide⟩
  unfold Core.RegisterNames.NamesApart
  decide

def blinkerHardware : Hardware blinkerKind Migen.PulseGenerators.PulseGen where
  next storage _ s := (Arguments.pulsegen {}).next
    ((Arguments.period {}).signal (storage ⟨instance₀, "period"⟩).toNat)
    (decide ((storage ⟨instance₀, "on"⟩).toNat ≠ 0)) s
  status s _ := BitVec.ofNat _ s.out.toNat

private theorem blinker_contains : Contains blinkerHardware {} instance₀ id where
  period := rfl
  on := rfl
  out := rfl
  next _ _ _ := rfl
  status s := by
    cases s with
    | mk out count carry => cases out <;> rfl

/-- The defaults of the registers and the generator as it is at first, with an access every ten
cycles. -/
def blinkerPowerUp : Machine blinkerKind (Migen.PulseGenerators.PulseGen × (ℕ → ℕ)) where
  storage r := BitVec.ofNat _ (if r.name = "period" then 6 else if r.name = "on" then 1 else 0)
  logic := (⟨false, 6, true⟩, fun _ => 9)

def emptyBus : Bus (Migen.PulseGenerators.PulseGen × (ℕ → ℕ)) where
  load _ d := (0, d)
  store _ _ d := d
  fetch _ d := some (0, d)
  handed _ := 0
  mapped _ _ _ := rfl

def blinkerBus : Bus (Machine blinkerKind (Migen.PulseGenerators.PulseGen × (ℕ → ℕ))) :=
  csrBus (Core.RegisterNames.registers blinker (.top "top")) (word blinkerFile) blinkerHardware.logic
    emptyBus

def blinkerSession : List Statement :=
  [.set ⟨instance₀, "on"⟩ 1] ++ .set ⟨instance₀, "period"⟩ (5 : ℕ) :: [.get ⟨instance₀, "out"⟩]

theorem pulses_after_session_blinker : ∃ labels c first,
    Complete blinkerBus
      (clientOps blinkerKind Core.OffsetLaw.wrapping (CsrMap.load blinkerFile.rows) blinkerSession)
        (fun _ => 0) blinkerPowerUp labels c ∧
    ∀ n, 0 < n → ((blinkerHardware.idle c.server.device.storage c.server.device.logic.1 n).out = true ↔
      first ≤ n ∧ 5 ∣ n - first) := by
  have inside : ∀ s ∈ blinkerSession, s.register ∈ Core.RegisterNames.registers blinker (.top "top") ∧
      (blinkerKind s.register).scalar = true := by decide
  obtain ⟨admissible, -⟩ := statements_run blinker_addressed blinkerHardware.logic emptyBus
    Core.OffsetLaw.wrapping_converts inside blinkerPowerUp
  obtain ⟨labels, c, complete⟩ := Core.RemoteInterface.complete_exists blinkerBus
    (fun _ => 0) blinkerPowerUp
    fun op there => Remote.ProtocolRefinement.answered_of_admissible (admissible op there)
  have kept : ∀ s ∈ [Statement.get ⟨instance₀, "out"⟩], ∀ u, s ≠ .set ⟨instance₀, "period"⟩ u := by
    rintro s there u rfl
    simp at there
  obtain ⟨first, -, -, pulses⟩ := pulses_after_session blinker_contains blinker_addressed emptyBus
    Core.OffsetLaw.wrapping_converts inside kept (by decide) (by decide) ⟨1, one_ne_zero, by rfl⟩
    (by show 6 < 2 ^ 32; decide) complete
  exact ⟨labels, c, first, complete, pulses⟩

end Blinker

end Pypga.Modules.PulseGen
