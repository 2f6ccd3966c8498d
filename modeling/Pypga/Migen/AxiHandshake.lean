/- GID: Pypga/Migen/AxiHandshake
   generality: G
   digest: The AXI writer loses no transfer exactly on a bus that takes it in the cycle after its strobe. -/

import Pypga.Foundation.ClockedMachine
import Pypga.Foundation.Handshake
import Pypga.Migen.AxiWriter

set_option autoImplicit false
set_option relaxedAutoImplicit false

namespace Pypga.Migen.AxiHandshake

open Pypga.Foundation.ClockedMachine (run)
open Pypga.Foundation.Handshake
open Pypga.Foundation.Waveform
open Pypga.Migen.AxiWriter

variable (w : ℕ → Input)

def writer : ℕ → Writer := run (fun i s => s.next i.we i.ready) ⟨false, false⟩ w

def strobe (t : ℕ) : Bool := (w t).we

/-- The address channel; its address is not registered. -/
def aw : Channel ℕ where
  valid t := (writer w t).awValid
  ready t := (w t).ready.aw
  payload t := (w t).address

def dataChannel : Channel (BitVec 64) where
  valid t := (writer w t).wValid
  ready t := (w t).ready.w
  payload t := (w t).data

/-- What is promised to the writer: strobes that wait for both transfers, an address and data that
stay until the next strobe. -/
structure Promised : Prop where
  awSpaced : Spaced (strobe w) (aw w).ready
  wSpaced : Spaced (strobe w) (dataChannel w).ready
  address : Stable (strobe w) (aw w).payload
  data : Stable (strobe w) (dataChannel w).payload

/-- Both channels serve every strobe, and a transfer on one belongs to the same strobe as the
transfer of the same number on the other. -/
structure LosesNothing : Prop where
  address : Lossless (strobe w) (aw w)
  data : Lossless (strobe w) (dataChannel w)
  paired : ∀ (n m k : ℕ) a d, ((times (aw w).taken 0 n).map (aw w).payload)[k]? = some a →
    ((times (dataChannel w).taken 0 m).map (dataChannel w).payload)[k]? = some d →
      ∃ t, (w t).we = true ∧ a = (w t).address ∧ d = (w t).data

variable {w}

private theorem writer_succ (t : ℕ) : writer w (t + 1) = ⟨(w t).we, (w t).we⟩ :=
  writer_next _ _ (writer w t)

private theorem aw_pulsed : Pulsed (strobe w) (aw w) := by
  refine ⟨rfl, ?_⟩
  intro t
  show (writer w (t + 1)).awValid = _
  rw [writer_succ]
  rfl

private theorem data_pulsed : Pulsed (strobe w) (dataChannel w) := by
  refine ⟨rfl, ?_⟩
  intro t
  show (writer w (t + 1)).wValid = _
  rw [writer_succ]
  rfl

private theorem paired_of_ordered {α β : Type*} {request : ℕ → Bool} {c : Channel α} {d : Channel β}
    (first : Lossless request c) (second : Lossless request d) {n m k : ℕ} {a : α} {b : β}
    (left : ((times c.taken 0 n).map c.payload)[k]? = some a)
    (right : ((times d.taken 0 m).map d.payload)[k]? = some b) :
    ∃ t, request t = true ∧ a = c.payload t ∧ b = d.payload t := by
  have more : ∀ l, l ≤ max n m → times request 0 l <+: times request 0 (max n m) :=
    fun l le => times_prefix (Nat.zero_le l) le
  have asked : ((times request 0 (max n m)).map c.payload)[k]? = some a :=
    getElem?_of_longer ((first.ordered n).trans ((more n (le_max_left n m)).map c.payload)) left
  have answered : ((times request 0 (max n m)).map d.payload)[k]? = some b :=
    getElem?_of_longer ((second.ordered m).trans ((more m (le_max_right n m)).map d.payload)) right
  rw [List.getElem?_map] at asked answered
  obtain ⟨t, at_k, rfl⟩ := Option.map_eq_some_iff.mp asked
  rw [at_k] at answered
  exact ⟨t, (mem_times.mp (List.mem_of_getElem? at_k)).2.2, rfl, (Option.some.inj answered).symm⟩

/-- No transfer is lost exactly if both channels are ready in the cycle after every strobe. -/
theorem loses_nothing_iff (promised : Promised w) :
    LosesNothing w ↔
      ∀ t, (w t).we = true → (w (t + 1)).ready.aw = true ∧ (w (t + 1)).ready.w = true := by
  have address := lossless_iff_ready aw_pulsed promised.awSpaced promised.address
  have data := lossless_iff_ready data_pulsed promised.wSpaced promised.data
  constructor
  · intro lossless t asked
    exact ⟨address.mp lossless.address t asked, data.mp lossless.data t asked⟩
  · intro ready
    have first := address.mpr fun t asked => (ready t asked).1
    have second := data.mpr fun t asked => (ready t asked).2
    refine ⟨first, second, ?_⟩
    intro n m k a d left right
    exact paired_of_ordered first second left right

/-- A strobe in the first cycle, on a bus that becomes ready in the cycle `u`. -/
def single (u : ℕ) (t : ℕ) : Input where
  address := 0xa000000
  data := 1
  we := t = 0
  ready := ⟨u ≤ t, u ≤ t⟩

private theorem single_promised {u : ℕ} (later : 0 < u) : Promised (single u) := by
  have alone : ∀ t, strobe (single u) t = true → t = 0 := by
    intro t asked
    simpa [strobe, single] using asked
  have first : FirstReady (fun t => decide (u ≤ t)) 0 u := by
    refine ⟨later, by simp, ?_⟩
    intro s _ before
    simpa using before
  have spaced : Spaced (strobe (single u)) fun t => decide (u ≤ t) := by
    intro t asked
    obtain rfl := alone t asked
    refine ⟨u, first, ?_⟩
    intro next after again
    exact absurd (alone next again) after.ne'
  exact ⟨spaced, spaced, fun _ _ _ _ _ => rfl, fun _ _ _ _ _ => rfl⟩

theorem loses_nothing_single :
    LosesNothing (single 1) ↔ ∀ t, (single 1 t).we = true →
      (single 1 (t + 1)).ready.aw = true ∧ (single 1 (t + 1)).ready.w = true :=
  loses_nothing_iff (single_promised (by decide))

/-- A bus that is ready one cycle later never gets the transfer. -/
theorem loses_nothing_counterexample : Promised (single 2) ∧ ¬ LosesNothing (single 2) := by
  have promised : Promised (single 2) := single_promised (by decide)
  refine ⟨promised, ?_⟩
  intro lossless
  have ready := ready_of_held aw_pulsed promised.awSpaced lossless.address (t := 0) rfl
  exact absurd ready (by decide)

end Pypga.Migen.AxiHandshake
