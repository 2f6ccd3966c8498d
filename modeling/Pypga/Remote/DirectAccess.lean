/- GID: Pypga/Remote/DirectAccess
   generality: G
   digest: Calls executed directly on the board, without sockets and buffers; the service loop does the same. -/

import Pypga.Remote.RequestExecution

set_option autoImplicit false
set_option relaxedAutoImplicit false

namespace Pypga.Remote.DirectAccess

open Pypga.Foundation.LittleEndian
open Pypga.Remote.MonitorServer
open Pypga.Remote.SocketClient
open Pypga.Remote.RequestExecution

variable {δ : Type*} (bus : Bus δ)

def access : Op → δ → Execution × δ
  | .reads addr length, d =>
    let state := readValues bus addr length (fun _ => 0, d)
    (.readValues addr length (entries state.1 length), state.2)
  | .readFromRam offset length, d =>
    let bytes := ramCopy bus (offset &&& ramMask).toNat (4 * length) d
    (.ramCopy (offset &&& ramMask) length (decode bytes.1), bytes.2)
  | .writes addr values, d =>
    (.writeValues addr values, writeValues bus addr (fun i => values.getD i 0) values.length d)

def accesses : List Op → δ → List Execution × δ
  | [], d => ([], d)
  | op :: ops, d =>
    let first := access bus op d
    let rest := accesses ops first.2
    (first.1 :: rest.1, rest.2)

def outcome : Execution → Outcome
  | .readValues _ _ words => .words words
  | .ramCopy _ _ words => .words words
  | .writeValues _ _ => .done

/-- The calls that the protocol can carry: lengths that fit the header, no empty write, no
RAM outside the mapped area. -/
def Admissible : Op → Prop
  | .reads _ length => length ≤ 65535
  | .readFromRam offset length =>
    length < 2 ^ 23 ∧ offset.toNat % ramSize + 4 * length ≤ ramSize
  | .writes _ values => values ≠ [] ∧ values.length ≤ 65533

theorem masked_offset (offset : Word) : (offset &&& ramMask).toNat = offset.toNat % ramSize := by
  rw [BitVec.toNat_and]
  exact Nat.and_two_pow_sub_one_eq_mod offset.toNat 25

private theorem read_entries_frame (address : Word) (n : ℕ) (a b : ℕ → Word) (d : δ) :
    ((List.range n).foldl (readEntry bus address) (a, d)).2 =
        ((List.range n).foldl (readEntry bus address) (b, d)).2 ∧
      ∀ i < n, ((List.range n).foldl (readEntry bus address) (a, d)).1 i =
        ((List.range n).foldl (readEntry bus address) (b, d)).1 i := by
  induction n with
  | zero => exact ⟨rfl, fun i below => absurd below (Nat.not_lt_zero i)⟩
  | succ n ih =>
    obtain ⟨device, earlier⟩ := ih
    simp only [List.range_succ, List.foldl_append, List.foldl_cons, List.foldl_nil, readEntry,
      device, true_and]
    intro i below
    by_cases last : i = n
    · simp [last]
    · simp [last, earlier i (by omega)]

private theorem read_values_frame (address : Word) (length : ℕ) (a b : ℕ → Word) (d : δ) :
    (readValues bus address length (a, d)).2 = (readValues bus address length (b, d)).2 ∧
      entries (readValues bus address length (a, d)).1 length =
        entries (readValues bus address length (b, d)).1 length := by
  unfold readValues
  split
  · obtain ⟨device, same⟩ := read_entries_frame bus address length a b d
    refine ⟨device, List.map_congr_left fun i inside => ?_⟩
    exact same i (List.mem_range.mp inside)
  · rename_i single
    refine ⟨rfl, List.map_congr_left fun i inside => ?_⟩
    have first : i = 0 := by
      have below := List.mem_range.mp inside
      omega
    simp [first]

private theorem write_values_frame (address : Word) {length : ℕ} (positive : 0 < length)
    {a b : ℕ → Word} (same : ∀ i < length, a i = b i) (d : δ) :
    writeValues bus address a length d = writeValues bus address b length d := by
  unfold writeValues
  split
  · apply List.foldl_ext
    intro d' i inside
    simp only [writeEntry, same i (List.mem_range.mp inside)]
  · rw [same 0 positive]

private theorem execute_access {op : Op} (admissible : Admissible op) {s : Server δ}
    (alive : s.phase ≠ .failed) :
    ∃ q, op.request = .ok q ∧ mappedArea q ∧
      (execute bus q s).1.device = (access bus op s.device).2 ∧
      (execute bus q s).1.log = s.log ++ [(access bus op s.device).1] := by
  cases op with
  | reads addr length =>
    have cap : min length 65535 = length := Nat.min_eq_left admissible
    obtain ⟨device, words⟩ :=
      read_values_frame bus addr length s.buffer (fun _ => 0) s.device
    refine ⟨.read addr length admissible, by simp only [Op.request, cap], trivial, ?_, ?_⟩
    · rw [execute_alive bus alive]
      exact device
    · rw [execute_alive bus alive]
      simp only [perform, Server.read, access, words]
  | readFromRam offset length =>
    obtain ⟨short, inside⟩ := admissible
    rw [← masked_offset] at inside
    have complete := ram_copy_length bus inside s.device
    refine ⟨.ram offset length short, by simp only [Op.request, short, dif_pos], inside, ?_, ?_⟩
    · rw [execute_alive bus alive]
      simp only [perform, Server.copy, if_pos complete]
      rfl
    · rw [execute_alive bus alive]
      simp only [perform, Server.copy, if_pos complete]
      rfl
  | writes addr values =>
    obtain ⟨some_values, few⟩ := admissible
    have all : values.take (65535 - 2) = values := List.take_of_length_le few
    have positive : 0 < values.length := List.length_pos_iff.mpr some_values
    refine ⟨.write addr values few, by simp only [Op.request, all], trivial, ?_, ?_⟩
    · rw [execute_alive bus alive]
      simp only [perform, Server.write, access, decode_encode]
      apply write_values_frame bus addr positive
      intro i below
      simp [fill, below]
    · rw [execute_alive bus alive]
      simp only [perform, Server.write, access, decode_encode, entries_fill]

def requests (ops : List Op) : List Request := ops.filterMap fun op => op.request.toOption

theorem requests_append (ops more : List Op) :
    requests (ops ++ more) = requests ops ++ requests more := List.filterMap_append

theorem requests_cons_ok {op : Op} {q : Request} {ops : List Op} (request : op.request = .ok q) :
    requests (op :: ops) = q :: requests ops := by
  simp [requests, request, Except.toOption]

theorem requests_cons_error {op : Op} {e : Error} {ops : List Op}
    (request : op.request = .error e) : requests (op :: ops) = requests ops := by
  simp [requests, request, Except.toOption]

/-- The service loop executes a sequence of admissible calls as direct access does. -/
theorem execute_all_accesses {ops : List Op} (admissible : ∀ op ∈ ops, Admissible op)
    {s : Server δ} (phase : s.phase = .header) :
    (executeAll bus (requests ops) s).1.log = s.log ++ (accesses bus ops s.device).1 ∧
      (executeAll bus (requests ops) s).1.device = (accesses bus ops s.device).2 := by
  induction ops generalizing s with
  | nil => exact ⟨(List.append_nil _).symm, rfl⟩
  | cons op ops ih =>
    have alive : s.phase ≠ .failed := by simp [phase]
    obtain ⟨q, request, mapped, device, log⟩ :=
      execute_access bus (admissible op List.mem_cons_self) alive
    have done : Executed q s (execute bus q s).1 (execute bus q s).2 := by
      rcases execute_cases bus q alive with done | ⟨outside, -⟩
      · exact done
      · exact absurd mapped outside
    obtain ⟨logs, devices⟩ :=
      ih (fun other later => admissible other (List.mem_cons_of_mem op later)) done.phase
    rw [requests_cons_ok request, executeAll]
    refine ⟨?_, ?_⟩
    · rw [logs, log, device, List.append_assoc]
      rfl
    · rw [devices, device]
      rfl

end Pypga.Remote.DirectAccess
