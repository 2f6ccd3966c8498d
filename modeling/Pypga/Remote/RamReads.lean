/- GID: Pypga/Remote/RamReads
   generality: G
   digest: The bytes a RAM read sends, and the offsets and lengths that keep it in the mapped area. -/

import Mathlib.Logic.Function.Iterate
import Pypga.Remote.DirectAccess

set_option autoImplicit false
set_option relaxedAutoImplicit false

namespace Pypga.Remote.RamReads

open Pypga.Foundation.LittleEndian
open Pypga.Remote.MonitorServer
open Pypga.Remote.SocketClient
open Pypga.Remote.RequestExecution
open Pypga.Remote.DirectAccess (masked_offset)

/-- The RAM area and what is mapped behind it, with what happens on the board while a byte is sent:
the gateware may go on writing. -/
structure Ram (δ : Type*) where
  byte : δ → ℕ → Byte
  behind : δ → ℕ → Option Byte
  tick : δ → δ

variable {δ : Type*}

def Ram.bus (ram : Ram δ) (registers : Bus δ) : Bus δ :=
  { registers with
    fetch := fun offset d =>
      if offset < ramSize then some (ram.byte d offset, ram.tick d)
      else (ram.behind d offset).map fun b => (b, ram.tick d)
    mapped := fun offset d inside => by simp only [if_pos inside, Option.isSome_some] }

/-- `points`, the number of words that a header asks for. -/
def points (buffer : List Byte) : ℕ :=
  (buffer.getD 1 0).toNat + ((buffer.getD 2 0).toNat <<< 8) + ((buffer.getD 3 0).toNat <<< 16)

/-- `address & RAM_MASK`, the place of the first byte that is sent. -/
def firstByte (buffer : List Byte) : ℕ :=
  (ofBytes (buffer.getD 4 0) (buffer.getD 5 0) (buffer.getD 6 0) (buffer.getD 7 0) &&& ramMask).toNat

/-- What the server hands over behind the header: the range that it selects, and of a range that
faults as much as the kernel has taken by then. -/
def selected (bus : Bus δ) (buffer : List Byte) (d : δ) : List Byte :=
  let bytes := (ramCopy bus (firstByte buffer) (4 * points buffer) d).1
  if bytes.length = 4 * points buffer then bytes else bytes.take (bus.handed d)

def Inside (buffer : List Byte) : Prop := ∀ k < 4 * points buffer, firstByte buffer + k < ramSize

/-- The bytes behind the echoed header are those of the area from the offset on, as they were when
each of them was sent. -/
def Faithful (ram : Ram δ) (offset length : ℕ) (d : δ) (reply : List Byte) : Prop :=
  ∀ k < 4 * length, offset + k < ramSize ∧
    reply[8 + k]? = some (ram.byte (ram.tick^[k] d) (offset + k))

section Headers

variable (offset : Word) {length : ℕ} (short : length < 2 ^ 23)

private theorem points_header : points (Request.ram offset length short).header = length :=
  three_bytes (by omega)

private theorem first_byte_header :
    firstByte (Request.ram offset length short).header = offset.toNat % ramSize := by
  have address : firstByte (Request.ram offset length short).header =
      (ofBytes (low offset.toNat) (low (offset.toNat >>> 8)) (low (offset.toNat >>> 16))
        (low (offset.toNat >>> 24)) &&& ramMask).toNat := rfl
  rw [address, ofBytes_low, masked_offset]

/-- The length alone keeps the range no longer than the area, the mask keeps its start inside;
together they do not keep the range inside. -/
private theorem inside_header : Inside (Request.ram offset length short).header ↔
    length = 0 ∨ offset.toNat % ramSize + 4 * length ≤ ramSize := by
  rw [Inside, points_header, first_byte_header]
  constructor
  · intro inside
    by_cases empty : length = 0
    · exact .inl empty
    · have last := inside (4 * length - 1) (by omega)
      exact .inr (by omega)
  · rintro (rfl | fits) k below
    · omega
    · omega

private theorem execute_ram_reply (bus : Bus δ) {s : Server δ} (alive : s.phase ≠ .failed) :
    (execute bus (.ram offset length short) s).2 = (Request.ram offset length short).header ++
      selected bus (Request.ram offset length short).header s.device := by
  rw [execute_alive bus alive, selected, first_byte_header, points_header, ← masked_offset]
  simp only [perform, Server.copy]
  split
  · rfl
  · rfl

end Headers

section Area

variable (ram : Ram δ) (registers : Bus δ)

private theorem ram_copy_inside (offset n : ℕ) (inside : offset + n ≤ ramSize) (d : δ) :
    (ramCopy (ram.bus registers) offset n d).1 =
      (List.range n).map fun k => ram.byte (ram.tick^[k] d) (offset + k) := by
  induction n generalizing offset d with
  | zero => rfl
  | succ n ih =>
    have mapped : offset < ramSize := by omega
    have fetched : (ram.bus registers).fetch offset d = some (ram.byte d offset, ram.tick d) :=
      if_pos mapped
    rw [ramCopy, fetched]
    simp only [ih (offset + 1) (by omega), List.range_succ_eq_map, List.map_cons,
      List.map_map]
    congr 1
    apply List.map_congr_left
    intro k _
    have place : offset + 1 + k = offset + (k + 1) := by omega
    rw [place]
    rfl

private theorem faithful_reply {offset length : ℕ} {header : List Byte} (whole : header.length = 8)
    (inside : offset + 4 * length ≤ ramSize) (d : δ) :
    Faithful ram offset length d
      (header ++ (ramCopy (ram.bus registers) offset (4 * length) d).1) := by
  intro k below
  refine ⟨by omega, ?_⟩
  rw [List.getElem?_append_right (by omega), whole, Nat.add_sub_cancel_left,
    ram_copy_inside ram registers offset (4 * length) inside, List.getElem?_map, List.getElem?_range below]
  rfl

end Area

/-- The server answers a RAM read with the bytes that its header selects. They are all in the mapped
area exactly if the wrapped range ends in it, and they are those that the caller asked for exactly if
the range itself does. -/
theorem ram_read_iff (ram : Ram δ) (registers : Bus δ) (offset : Word) (length : ℕ) (q : Request)
    (accepted : (Op.readFromRam offset length).request = .ok q) (s : Server δ)
    (phase : s.phase = .header) (unread : List Byte) :
    ∃ served, serve (ram.bus registers) s (q.bytes ++ unread) = some served ∧
      served.sent = q.header ++ selected (ram.bus registers) q.header s.device ∧
      (Inside q.header ↔ length = 0 ∨ offset.toNat % ramSize + 4 * length ≤ ramSize) ∧
      (Inside q.header ∧ Faithful ram offset.toNat length s.device served.sent ↔
        length = 0 ∨ offset.toNat + 4 * length ≤ ramSize) := by
  obtain ⟨short, rfl⟩ : ∃ short, q = .ram offset length short := by
    by_cases short : length < 2 ^ 23
    · simp only [Op.request, dif_pos short, Except.ok.injEq] at accepted
      exact ⟨short, accepted.symm⟩
    · simp only [Op.request, dif_neg short, reduceCtorEq] at accepted
  have alive : s.phase ≠ .failed := by simp [phase]
  have reply := execute_ram_reply offset short (ram.bus registers) alive
  refine ⟨_, serve_ram (ram.bus registers) offset length short phase unread, reply,
    inside_header offset short, ?_⟩
  constructor
  · rintro ⟨-, faithful⟩
    by_cases empty : length = 0
    · exact .inl empty
    · have last := (faithful (4 * length - 1) (by omega)).1
      exact .inr (by omega)
  · intro fits
    have wrapped := Nat.mod_le offset.toNat ramSize
    refine ⟨(inside_header offset short).mpr (by omega), ?_⟩
    intro k below
    have within : offset.toNat + 4 * length ≤ ramSize := by omega
    have unwrapped : offset.toNat % ramSize = offset.toNat := Nat.mod_eq_of_lt (by omega)
    show _ ∧ (execute _ _ s).2[8 + k]? = _
    have whole : selected (ram.bus registers) (Request.ram offset length short).header s.device =
        (ramCopy (ram.bus registers) offset.toNat (4 * length) s.device).1 := by
      rw [selected, first_byte_header, points_header, unwrapped]
      exact if_pos (ram_copy_length (ram.bus registers) within s.device)
    rw [reply, whole]
    exact faithful_reply ram registers rfl within s.device k below

theorem ram_read_first :
    let ram : Ram Word := ⟨fun _ _ => 1, fun _ _ => none, id⟩
    let s : Server Word := ⟨.header, fun _ => 0, 0, []⟩
    ∃ served, serve (ram.bus latch) s (Request.ram 0 2 (by decide)).bytes = some served ∧
      Faithful ram 0 2 0 served.sent := by
  intro ram s
  obtain ⟨served, answer, -, -, exact⟩ := ram_read_iff ram latch 0 2 (.ram 0 2 (by decide)) rfl s rfl []
  rw [List.append_nil] at answer
  exact ⟨served, answer, (exact.mpr (by decide)).2⟩

/-- Two words from the last one of the area on: the second word is behind the mapped area. -/
theorem ram_read_last_word :
    ∃ q, (Op.readFromRam 0x1FFFFFC 2).request = .ok q ∧ ¬ Inside q.header := by
  refine ⟨.ram 0x1FFFFFC 2 (by decide), rfl, ?_⟩
  intro inside
  exact absurd (inside 4 (by decide)) (by decide)

end Pypga.Remote.RamReads
