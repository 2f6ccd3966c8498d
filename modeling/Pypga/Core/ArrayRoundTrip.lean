/- GID: Pypga/Core/ArrayRoundTrip
   generality: G
   digest: An array written over the network is read back, up to the length caps of the client. -/

import Pypga.Core.MountedRegister
import Pypga.Core.RemoteInterface

set_option autoImplicit false
set_option relaxedAutoImplicit false

namespace Pypga.Core.ArrayRoundTrip

open Pypga.Foundation.LabelledRun (run)
open Pypga.Foundation.LittleEndian (Word decode_encode)
open Pypga.Core.MemoryRegister
open Pypga.Core.IndexedArray
open Pypga.Core.MountedRegister
open Pypga.Core.RemoteInterface
open Pypga.Remote.MonitorServer
open Pypga.Remote.RequestExecution
open Pypga.Remote.DirectAccess
open Pypga.Remote.Connection
open Pypga.Remote.OrderlySession

variable {width depth : ℕ} {κ μ ρ : Type*}
variable {csr : CsrStorage (width + 1) κ} {port : MemoryPort width depth μ}

section Loops

variable (narrow : width ≤ 31) (indices : depth ≤ 2 ^ width)
include narrow indices

private theorem written_then_read (address : Word) (rest : Bus ρ) (values : ℕ → Word) {m n : ℕ}
    (several : 1 < m) (within : m ≤ depth) (many : 1 < n) (inside : n ≤ depth) (buffer : ℕ → Word)
    (d : Board width depth κ μ ρ) :
    ∃ mem : ℕ → BitVec width, (∀ i < m, mem i = (values i).setWidth width) ∧
      (∀ before, Holds csr port false d.register before → ∀ i, m ≤ i → mem i = before i) ∧
      entries (readValues (mount csr port false address rest) address n
        (buffer, writeValues (mount csr port false address rest) address values m d)).1 n =
      (List.range n).map fun i => (mem i).setWidth 32 := by
  obtain ⟨mem, represents, stored, kept⟩ := write_loop address rest narrow indices
    values within (by omega) d
  have power : 2 ^ width ≤ 2 ^ 31 := Nat.pow_le_pow_right (by decide) narrow
  obtain ⟨-, read⟩ := read_loop address rest inside (by omega) buffer _
    (.inl ⟨_, _, represents⟩)
  refine ⟨mem, stored, kept, ?_⟩
  rw [readValues, if_pos many, writeValues, if_pos several, entries]
  apply List.map_congr_left
  intro i member
  have below := List.mem_range.mp member
  rw [read i below, Nat.mod_eq_of_lt (by omega)]

end Loops

private theorem round_trip_log (bus : Bus ρ) (address : Word) (values : List ℕ) (length : ℕ)
    (buffer : ℕ → Word) (device : ρ) :
    (executeAll bus (requests [writeArray address values, readArray address length])
      (Config.connected buffer device).server).1.log =
    [.writeValues address ((values.map (BitVec.ofNat 32)).take 65533),
      .readValues address (min length 65535)
        (entries (readValues bus address (min length 65535)
          (fill buffer ((values.map (BitVec.ofNat 32)).take 65533),
            writeValues bus address (fill buffer ((values.map (BitVec.ofNat 32)).take 65533))
              ((values.map (BitVec.ofNat 32)).take 65533).length device)).1
          (min length 65535))] := by
  have alive : (Config.connected buffer device).server.phase ≠ .failed := by
    intro failed
    cases failed
  rw [writeArray, readArray, requests_cons_ok rfl, requests_cons_ok rfl]
  simp only [requests, List.filterMap_nil, executeAll]
  rw [execute_alive bus alive, execute_alive bus (by intro failed; cases failed)]
  simp only [perform, Server.write, Server.read, decode_encode, entries_fill]
  rfl

theorem write_array_answered (address : Word) {values : List ℕ} (words : values ≠ []) :
    Answered (writeArray address values) := by
  refine ⟨_, rfl, trivial, fun none_left => words ?_⟩
  rcases List.take_eq_nil_iff.mp none_left with few | none_left
  · cases few
  · exact List.map_eq_nil_iff.mp none_left

private theorem round_trip_answered (address : Word) {values : List ℕ} (words : values ≠ [])
    (length : ℕ) :
    ∀ op ∈ [writeArray address values, readArray address length], Answered op := by
  intro op member
  simp only [List.mem_cons, List.not_mem_nil, or_false] at member
  rcases member with rfl | rfl
  · exact write_array_answered address words
  · exact ⟨_, rfl, trivial, trivial⟩

private theorem take_written {values : List ℕ} {mem : ℕ → BitVec width} {n : ℕ}
    (narrow : width ≤ 31)
    (fits : ∀ v ∈ values, v < 2 ^ width) (buffer : ℕ → Word) (short : min values.length 65533 ≤ n)
    (stored : ∀ i < min values.length 65533, mem i =
      (fill buffer ((values.map (BitVec.ofNat 32)).take 65533) i).setWidth width) :
    (((List.range n).map fun i => (mem i).setWidth 32).map BitVec.toNat).take
      (min values.length 65533) = values.take 65533 := by
  have power : 2 ^ width ≤ 2 ^ 31 := Nat.pow_le_pow_right (by decide) narrow
  apply List.ext_getElem
  · simp only [List.length_take, List.length_map, List.length_range]
    omega
  · intro i left right
    have below : i < min values.length 65533 := by
      simp only [List.length_take] at right
      omega
    have bound := fits _ (List.getElem_mem (show i < values.length by omega))
    have kept : values[i] % 2 ^ 32 = values[i] := Nat.mod_eq_of_lt (by omega)
    have few : i < 65533 := by omega
    have word : fill buffer ((values.map (BitVec.ofNat 32)).take 65533) i =
        BitVec.ofNat 32 values[i] := by
      have there : i < ((values.map (BitVec.ofNat 32)).take 65533).length := by
        simp only [List.length_take, List.length_map]
        omega
      rw [fill, List.getD_eq_getElem _ _ there, List.getElem_take, List.getElem_map]
    rw [List.getElem_take, List.getElem_take, List.getElem_map, List.getElem_map,
      List.getElem_range, stored i below, word, BitVec.toNat_setWidth, BitVec.toNat_setWidth,
      BitVec.toNat_ofNat, kept, Nat.mod_eq_of_lt bound, kept]

/-- Writing a full array and reading it back, with whole acknowledgements and no timeouts, always
ends, and returns the words written; the client writes no more than 65533 of them and reads no
more than 65535. -/
theorem array_round_trip (csr : CsrStorage (width + 1) κ) (port : MemoryPort width depth μ)
    (address : Word) (rest : Bus ρ) (narrow : width ≤ 31) (deep : 2 ≤ depth)
    (indices : depth ≤ 2 ^ width) (buffer : ℕ → Word) (board : Board width depth κ μ ρ)
    (values : List ℕ) (full : values.length = depth) (fits : ∀ v ∈ values, v < 2 ^ width) :
    (∀ labels c, Complete (mount csr port false address rest)
        [writeArray address values, readArray address depth] buffer board labels c →
      ∃ words read, c.client.returned = [(0, .done), (1, .words words)] ∧
        readValue words = .list read ∧ read.length = min depth 65535 ∧
        read.take (min depth 65533) = values.take 65533) ∧
    ∃ labels c, Complete (mount csr port false address rest)
      [writeArray address values, readArray address depth] buffer board labels c := by
  constructor
  · intro labels c complete
    have returned := complete_returned complete
    rw [round_trip_log] at returned
    have size : ((values.map (BitVec.ofNat 32)).take 65533).length = min depth 65533 := by
      rw [List.length_take, List.length_map, full, Nat.min_comm]
    rw [size] at returned
    obtain ⟨mem, stored, -, words⟩ := written_then_read narrow indices
      address rest (fill buffer ((values.map (BitVec.ofNat 32)).take 65533))
      (m := min depth 65533) (n := min depth 65535) (by omega) (by omega) (by omega) (by omega)
      (fill buffer ((values.map (BitVec.ofNat 32)).take 65533)) board
    rw [words] at returned
    refine ⟨_, _, returned, read_value_list ?_, ?_, ?_⟩
    · simp only [List.length_map, List.length_range]
      omega
    · simp only [List.length_map, List.length_range]
    · rw [← full] at stored ⊢
      exact take_written narrow fits buffer (by omega) stored
  · have words : values ≠ [] := List.length_pos_iff.mp (by omega)
    exact complete_exists _ _ _ (round_trip_answered address words depth)

def cleared (width depth : ℕ) : Board width depth (BitVec (width + 1) × Bool)
    ((ℕ → BitVec width) × BitVec (adrWidth depth)) Word where
  register := ⟨(0, false), (fun _ => 0, 0), 0, false, false, false, 0, false⟩
  late := fun _ => 0
  rest := 0

def roundTrip (address : Word) (values : List ℕ) : List Label :=
  [.call (writeArray address values), .serve, .serve, .receive 8,
    .call (readArray address values.length), .serve, .receive (4 * values.length + 8)]

theorem array_round_trip_two_bits :
    ∃ labels c words read,
      Complete (mount (csrStorage 2) (writeFirst 1 2) false 0x40000000 latch)
        [writeArray 0x40000000 [1, 0], readArray 0x40000000 2] (fun _ => 0) (cleared 1 2) labels c ∧
      c.client.returned = [(0, .done), (1, .words words)] ∧ readValue words = .list read ∧
      read.length = 2 ∧ read.take 2 = [1, 0] := by
  obtain ⟨every, labels, c, complete⟩ :=
    array_round_trip (csrStorage 2) (writeFirst 1 2) 0x40000000 latch (by decide) le_rfl le_rfl
      (fun _ => 0) (cleared 1 2) [1, 0] rfl (by decide)
  obtain ⟨words, read, returned, list, length, same⟩ := every labels c complete
  exact ⟨labels, c, words, read, complete, returned, list, length, same⟩

private theorem entry_not_written (narrow : width ≤ 31) (indices : depth ≤ 2 ^ width)
    (more : 65533 < depth) (address : Word) (rest : Bus ρ) (buffer : ℕ → Word)
    (board : Board width depth κ μ ρ) (values : List ℕ) (full : values.length = depth) {fresh : Bool}
    {a : Selection width} (represents : Represents csr port fresh board.register a) :
    ∃ labels c words, Complete (mount csr port false address rest)
        [writeArray address values, readArray address depth] buffer board labels c ∧
      c.client.returned = [(0, .done), (1, .words words)] ∧
      words[65533]? = some ((a.mem 65533).setWidth 32) := by
  have some_words : values ≠ [] := List.length_pos_iff.mp (by omega)
  obtain ⟨labels, c, complete⟩ := complete_exists (mount csr port false address rest)
    buffer board (round_trip_answered address some_words depth)
  have returned := complete_returned complete
  have size : ((values.map (BitVec.ofNat 32)).take 65533).length = 65533 := by
    rw [List.length_take, List.length_map, full, Nat.min_eq_left more.le]
  rw [round_trip_log, size] at returned
  obtain ⟨mem, -, kept, words⟩ := written_then_read narrow indices
    address rest (fill buffer ((values.map (BitVec.ofNat 32)).take 65533))
    (m := 65533) (n := min depth 65535) (by omega) (by omega) (by omega) (by omega)
    (fill buffer ((values.map (BitVec.ofNat 32)).take 65533)) board
  rw [words] at returned
  refine ⟨labels, c, _, complete, returned, ?_⟩
  have there : 65533 < min depth 65535 := by omega
  rw [List.getElem?_map, List.getElem?_range there, ← kept a.mem (.inl ⟨fresh, a.idx, represents⟩) 65533 le_rfl]
  rfl

/-- Three entries of one bit share two indices, and the last of 65534 entries is not written. -/
theorem array_round_trip_counterexample :
    ((run (Config.step (mount (csrStorage 2) (writeFirst 1 3) false 0x40000000 latch))
      (roundTrip 0x40000000 [0, 0, 1]) (Config.connected (fun _ => 0) (cleared 1 3))).map
        fun c => c.client.returned) = some [(0, .done), (1, .words [1, 0, 1])] ∧
    ∃ labels c words,
      Complete (mount (csrStorage 17) (writeFirst 16 65534) false 0x40000000 latch)
        [writeArray 0x40000000 (List.replicate 65534 1), readArray 0x40000000 65534]
        (fun _ => 0) (cleared 16 65534) labels c ∧
      c.client.returned = [(0, .done), (1, .words words)] ∧
      words.map BitVec.toNat ≠ List.replicate 65534 1 := by
  refine ⟨by decide +kernel, ?_⟩
  have represents : Represents (csrStorage 17) (writeFirst 16 65534) false
      (cleared 16 65534).register ⟨fun _ => 0, 0⟩ :=
    ⟨⟨rfl, rfl, rfl, rfl, rfl⟩, rfl, rfl, fun fresh => by cases fresh⟩
  obtain ⟨labels, c, words, complete, returned, last⟩ := entry_not_written
    (by decide) (by decide) (by decide) 0x40000000 latch (fun _ => 0) (cleared 16 65534)
    (List.replicate 65534 1) List.length_replicate represents
  refine ⟨labels, c, words, complete, returned, ?_⟩
  intro same
  have here := congrArg (fun vs : List ℕ => vs[65533]?) same
  simp only [List.getElem?_map, last, List.getElem?_replicate] at here
  simp at here

end Pypga.Core.ArrayRoundTrip
