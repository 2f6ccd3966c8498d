/- GID: Pypga/Migen/AxiWriter
   generality: G
   digest: The AXI writer: every strobe asks for one transfer of eight bytes in the next cycle, and in no other. -/

import Mathlib.Data.Nat.Notation
import Mathlib.Logic.Function.Basic

set_option autoImplicit false
set_option relaxedAutoImplicit false

namespace Pypga.Migen.AxiWriter

/-- The registers of `MigenAxiWriter`. -/
structure Writer where
  awValid : Bool
  wValid : Bool
  deriving DecidableEq

structure Ready where
  aw : Bool
  w : Bool

/-- A transfer that is not taken in its cycle is not repeated. -/
def Writer.next (we : Bool) (ready : Ready) (_ : Writer) : Writer where
  awValid := if we then true else if ready.aw then false else false
  wValid := if we then true else if ready.w then false else false

theorem writer_next (we : Bool) (ready : Ready) (s : Writer) : s.next we ready = ⟨we, we⟩ := by
  cases we <;> simp [Writer.next]

/-- The address register in front of the writer, the writer, and the RAM behind its port, in
units of eight bytes. -/
structure State where
  address : ℕ
  writer : Writer
  ram : ℕ → BitVec 64

structure Input where
  address : ℕ
  data : BitVec 64
  we : Bool
  ready : Ready

def next (i : Input) (s : State) : State where
  address := i.address
  writer := s.writer.next i.we i.ready
  ram :=
    if s.writer.awValid && i.ready.aw && (s.writer.wValid && i.ready.w) then
      Function.update s.ram (s.address / 8) i.data
    else s.ram

variable {i j : Input} (s : State)

theorem next_transfer : (next i s).address = i.address ∧ (next i s).writer = ⟨i.we, i.we⟩ :=
  ⟨rfl, writer_next _ _ s.writer⟩

theorem ram_of_silent (silent : i.we = false) : (next j (next i s)).ram = (next i s).ram := by
  show (if (s.writer.next i.we i.ready).awValid && j.ready.aw &&
    ((s.writer.next i.we i.ready).wValid && j.ready.w) then _ else _) = _
  rw [writer_next, silent]
  rfl

theorem ram_of_strobe (strobe : i.we = true) (aw : j.ready.aw = true) (w : j.ready.w = true) :
    (next j (next i s)).ram = Function.update (next i s).ram (i.address / 8) j.data := by
  show (if (s.writer.next i.we i.ready).awValid && j.ready.aw &&
    ((s.writer.next i.we i.ready).wValid && j.ready.w) then _ else _) = _
  rw [writer_next, strobe, aw, w]
  rfl

end Pypga.Migen.AxiWriter
