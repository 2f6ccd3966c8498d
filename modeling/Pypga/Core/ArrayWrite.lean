/- GID: Pypga/Core/ArrayWrite
   generality: G
   digest: What an array write leaves in the entries of a memory register, for lists of any length. -/

import Pypga.Core.ArrayRoundTrip
import Pypga.Core.SharedRegister

set_option autoImplicit false
set_option relaxedAutoImplicit false

namespace Pypga.Core.ArrayWrite

open Pypga.Foundation.LittleEndian (Word decode encode decode_encode)
open Pypga.Core.MemoryRegister
open Pypga.Core.IndexedArray
open Pypga.Core.MountedRegister
open Pypga.Core.ArrayRoundTrip (cleared write_array_answered)
open Pypga.Core.SharedRegister (represents_of_quiet)
open Pypga.Core.RemoteInterface
open Pypga.Foundation.LabelledRun
open Pypga.Remote.MonitorServer
open Pypga.Remote.SocketClient (Op Request Client)
open Pypga.Remote.RequestExecution
open Pypga.Remote.DirectAccess
open Pypga.Remote.Connection
open Pypga.Remote.ExecutedRequests (executed_requests)
open Pypga.Remote.OrderlySession (Answered)
open Pypga.Remote.ProtocolRefinement (calls requests_run)

variable {width depth : ℕ} {κ μ ρ : Type*}

section Entries

structure WritesOwn (depth : ℕ) (words : List ℕ) (before after : ℕ → BitVec width) : Prop where
  written : ∀ i, (inside : i < words.length) → (after i).toNat = words[i]
  kept : ∀ i, words.length ≤ i → i < depth → after i = before i

/-- The lists that are written to their entries alone, from these entries, this index, and with this
word at the start of the buffer. -/
def Safe (depth : ℕ) (words : List ℕ) (first : Word) (mem : ℕ → BitVec width) (idx : ℕ) : Prop :=
  match words with
  | [] => first.toNat % 2 = 1 ∨ depth ≤ idx ∨ (mem idx).toNat = first.toNat / 2 % 2 ^ width
  | [v] => v = 0 ∧ idx = 0 ∨
      (mem 0).toNat = v ∧ (v % 2 = 1 ∨ depth ≤ idx ∨ idx ≠ 0 ∧ (mem idx).toNat = v / 2)
  | _ => True

def Stored (depth : ℕ) (word : Word) (idx : ℕ) (before after : ℕ → BitVec width) : Prop :=
  ∀ i < depth, after i =
    if word.toNat % 2 = 0 ∧ i = idx then payload (word.setWidth (width + 1)) else before i

variable {word : Word} {idx : ℕ} {before after : ℕ → BitVec width}
variable (stored : Stored depth word idx before after)
include stored

private theorem writes_own_nil :
    WritesOwn depth [] before after ↔ Safe depth [] word before idx := by
  rw [Safe, ← payload_to_nat, BitVec.toNat_inj]
  constructor
  · intro own
    by_cases odd : word.toNat % 2 = 1
    · exact .inl odd
    · by_cases behind : depth ≤ idx
      · exact .inr (.inl behind)
      · have inside : idx < depth := Nat.not_le.mp behind
        have kept := own.kept idx (Nat.zero_le idx) inside
        rw [stored idx inside, if_pos ⟨by omega, rfl⟩] at kept
        exact .inr (.inr kept.symm)
  · intro safe
    refine ⟨fun i inside => absurd inside (Nat.not_lt_zero i), fun i _ inside => ?_⟩
    rw [stored i inside]
    split
    · rename_i here
      obtain ⟨even, rfl⟩ := here
      rcases safe with odd | behind | same
      · omega
      · omega
      · exact same.symm
    · rfl

/-- A single word is stored without being shifted, where the index is. -/
private theorem writes_own_single {v : ℕ} (nonempty : 0 < depth) (value : word.toNat = v)
    (half : (payload (word.setWidth (width + 1))).toNat = v / 2) :
    WritesOwn depth [v] before after ↔ Safe depth [v] word before idx := by
  have first := stored 0 nonempty
  rw [value] at first
  rw [Safe]
  constructor
  · intro own
    have entry : (after 0).toNat = v := own.written 0 Nat.one_pos
    by_cases odd : v % 2 = 1
    · rw [first, if_neg (by omega)] at entry
      exact .inr ⟨entry, .inl odd⟩
    · by_cases zero : idx = 0
      · rw [first, if_pos ⟨by omega, zero.symm⟩, half] at entry
        exact .inl ⟨by omega, zero⟩
      · rw [first, if_neg (by omega)] at entry
        by_cases behind : depth ≤ idx
        · exact .inr ⟨entry, .inr (.inl behind)⟩
        · have inside : idx < depth := Nat.not_le.mp behind
          have kept := own.kept idx (Nat.one_le_iff_ne_zero.mpr zero) inside
          rw [stored idx inside, if_pos ⟨by omega, rfl⟩] at kept
          exact .inr ⟨entry, .inr (.inr ⟨zero, by rw [← kept, half]⟩)⟩
  · intro safe
    refine ⟨?_, ?_⟩
    · intro i inside
      obtain rfl : i = 0 := Nat.lt_one_iff.mp inside
      show (after 0).toNat = v
      rw [first]
      split
      · rename_i here
        rw [half]
        omega
      · rename_i elsewhere
        rcases safe with ⟨rfl, rfl⟩ | ⟨entry, -⟩
        · exact absurd ⟨rfl, rfl⟩ elsewhere
        · exact entry
    · intro i above inside
      have later : 1 ≤ i := above
      rw [stored i inside, value]
      split
      · rename_i here
        obtain ⟨even, rfl⟩ := here
        apply BitVec.eq_of_toNat_eq
        rw [half]
        omega
      · rfl

end Entries

section Gateware

/-- A write behind the last entry changes no entry. -/
def Bounded (port : MemoryPort width depth μ) : Prop :=
  ∀ adr (write : Write width depth) m, depth ≤ write.1.toNat → ∀ i < depth,
    port.mem (port.next adr (some write) m) i = port.mem m i

variable {csr : CsrStorage (width + 1) κ} {port : MemoryPort width depth μ}
variable {r : Register width depth κ μ}

private theorem mem_idle_of_still (still : Still csr r) (n : ℕ) :
    Still csr (idle csr port false n r) ∧ port.mem (idle csr port false n r).memory = port.mem r.memory := by
  induction n with
  | zero => exact ⟨still, rfl⟩
  | succ n ih =>
    obtain ⟨before, same⟩ := ih
    have passed := passed_edge port false before
    rw [idle_succ]
    exact ⟨passed.still, passed.mem.trans same⟩

private theorem mem_settle_odd (quiet : Quiet csr r) {word : Word} (odd : word.toNat % 2 = 1)
    (n : ℕ) :
    port.mem (settle csr port false (some word) (1 + n) r).memory = port.mem r.memory := by
  have mem : port.mem (edge csr port false (some word) none r).memory = port.mem r.memory :=
    mem_edge_of_held quiet.we _
  have held : (edge csr port false (some word) none r).we = false := we_edge_of_silent quiet.re _
  have new : csr.storage (edge csr port false (some word) none r).csr = word.setWidth (width + 1) :=
    csr.storage_bus _ _ _ _
  have control : (word.setWidth (width + 1)).getLsbD 0 = true := by
    rw [control_bit, odd]
    rfl
  have value : updateValue csr (edge csr port false (some word) none r) = false := by
    rw [updateValue, new, control, Bool.not_true, Bool.and_false]
  rw [settle, idle_add]
  generalize edge csr port false (some word) none r = r₁ at *
  have still : Still csr (edge csr port false none none r₁) :=
    ⟨silent_edge r₁, we_edge_of_still value none⟩
  have one : idle csr port false 1 r₁ = edge csr port false none none r₁ := rfl
  rw [one, (mem_idle_of_still still n).2, mem_edge_of_held held none, mem]

private theorem mem_settle_even (bounded : Bounded port) (quiet : Quiet csr r) {word : Word}
    (even : word.toNat % 2 = 0) (n : ℕ) {i : ℕ} (inside : i < depth) :
    port.mem (settle csr port false (some word) (2 + n) r).memory i =
      if i = r.adr.toNat then payload (word.setWidth (width + 1)) else port.mem r.memory i := by
  by_cases here : r.adr.toNat < depth
  · have before : Represents csr port false r ⟨port.mem r.memory, r.adr.toNat⟩ :=
      represents_of_quiet quiet
    have after := even_refines word even before here n
    rw [after.mem, Selection.put]
    exact Function.update_apply _ _ _ _
  · have behind : depth ≤ r.adr.toNat := Nat.not_lt.mp here
    have pending := value_latched port even quiet
    rw [if_neg (by omega), settle, idle_add, idle_two]
    generalize edge csr port false none none (edge csr port false (some word) none r) = s at *
    have still : Still csr (edge csr port false none none s) :=
      ⟨silent_edge s, we_edge_of_silent pending.silent none⟩
    rw [(mem_idle_of_still still n).2, ← pending.mem]
    show port.mem (port.next s.adr (if s.we then some (s.adr, s.datW) else none) s.memory) i = _
    rw [pending.we, if_pos rfl]
    exact bounded _ _ _ (by rw [pending.adr]; exact behind) i inside

private theorem stored_tick (bounded : Bounded port) (d : Board width depth κ μ ρ)
    (quiet : Quiet csr d.register) (word : Word) :
    Stored depth word d.register.adr.toNat (port.mem d.register.memory)
      (port.mem (d.tick csr port false (some word)).register.memory) := by
  intro i inside
  have two : 5 + d.late 0 = 2 + (3 + d.late 0) := by omega
  show port.mem (settle csr port false (some word) (5 + d.late 0) d.register).memory i = _
  rcases Nat.mod_two_eq_zero_or_one word.toNat with even | odd
  · rw [two, mem_settle_even bounded quiet even _ inside]
    simp only [even, true_and]
  · have one : 5 + d.late 0 = 1 + (4 + d.late 0) := by omega
    rw [one, mem_settle_odd quiet odd, if_neg (by omega)]

end Gateware

section Calls

variable {csr : CsrStorage (width + 1) κ} {port : MemoryPort width depth μ}

/-- A state of the connection, however it was reached, in which the server has executed the first
call and nothing else. -/
structure Performed (bus : Bus ρ) (op : Op) (buffer : ℕ → Word) (device : ρ) (labels : List Label)
    (c : Config ρ) : Prop where
  path : run (Config.step bus) labels (Config.connected buffer device) = some c
  first : ∃ more, calls labels = op :: more
  once : c.server.log.length = 1
  alive : c.server.phase ≠ .failed

private theorem write_request (address : Word) {words : List ℕ} (few : words.length ≤ 65533) :
    (writeArray address words).request = .ok (.write address (words.map (BitVec.ofNat 32))
      (by rw [List.length_map]; exact few)) := by
  have all : (words.map (BitVec.ofNat 32)).take (65535 - 2) = words.map (BitVec.ofNat 32) :=
    List.take_of_length_le (by rw [List.length_map]; exact few)
  simp only [writeArray, Op.request, all]

variable {bus : Bus ρ} {address : Word} {words : List ℕ} {buffer : ℕ → Word} {device : ρ}
variable {labels : List Label} {c : Config ρ}

private theorem written_device (few : words.length ≤ 65533)
    (performed : Performed bus (writeArray address words) buffer device labels c) :
    c.server.device = writeValues bus address (fill buffer (words.map (BitVec.ofNat 32)))
      words.length device := by
  obtain ⟨path, ⟨more, called⟩, once, alive⟩ := performed
  have sent : c.client.requests = requests (calls labels) := requests_run path
  rw [called, requests_cons_ok (write_request address few)] at sent
  obtain ⟨-, ⟨-, same⟩ | ⟨ended, -⟩⟩ := executed_requests path
  · have begins : (Config.connected buffer device).server.phase ≠ .failed := by
      intro failed
      cases failed
    have devices := congrArg Server.device same
    rw [once, sent, List.take_succ_cons, List.take_zero, executeAll, execute_alive bus begins] at devices
    show c.server.device = _
    refine devices.trans ?_
    show writeValues bus address (fill buffer (decode (encode _))) _ device = _
    rw [decode_encode, List.length_map]
  · exact absurd ended alive

private theorem performed_of_complete (few : words.length ≤ 65533)
    (complete : Complete bus [writeArray address words] buffer device labels c) :
    Performed bus (writeArray address words) buffer device labels c := by
  have executed := complete_executed complete
  rw [requests_cons_ok (write_request address few)] at executed
  have begins : (Config.connected buffer device).server.phase ≠ .failed := by
    intro failed
    cases failed
  have all : (executeAll bus (.write address (words.map (BitVec.ofNat 32))
      (by rw [List.length_map]; exact few) :: requests []) (Config.connected buffer device).server).1 =
      (perform bus (.write address (words.map (BitVec.ofNat 32))
        (by rw [List.length_map]; exact few)) (Config.connected buffer device).server).1 := by
    rw [executeAll, execute_alive bus begins]
    rfl
  rw [all] at executed
  refine ⟨complete.path, ⟨[], complete.called⟩, ?_, ?_⟩
  · rw [executed]
    rfl
  · rw [executed]
    intro failed
    cases failed

section Lists

variable (narrow : width ≤ 31) (address : Word) (rest : Bus ρ) (buffer : ℕ → Word)
variable (board : Board width depth κ μ ρ)

private theorem fill_word {words : List ℕ} {i : ℕ} (inside : i < words.length) :
    fill buffer (words.map (BitVec.ofNat 32)) i = BitVec.ofNat 32 words[i] := by
  have there : i < (words.map (BitVec.ofNat 32)).length := by
    rw [List.length_map]
    exact inside
  rw [fill, List.getD_eq_getElem _ _ there, List.getElem_map]

include narrow in
private theorem word_to_nat {v : ℕ} (fits : v < 2 ^ width) : (BitVec.ofNat 32 v).toNat = v := by
  have power : 2 ^ width ≤ 2 ^ 31 := Nat.pow_le_pow_right (by decide) narrow
  rw [BitVec.toNat_ofNat, Nat.mod_eq_of_lt (by omega)]

private theorem writes_own_several (narrow : width ≤ 31) (indices : depth ≤ 2 ^ width)
    (quiet : Quiet csr board.register) {words : List ℕ} (several : 1 < words.length)
    (within : words.length ≤ depth) (fits : ∀ v ∈ words, v < 2 ^ width) :
    WritesOwn depth words (port.mem board.register.memory)
      (port.mem (writeValues (mount csr port false address rest) address
        (fill buffer (words.map (BitVec.ofNat 32))) words.length board).register.memory) := by
  obtain ⟨mem, represents, stored, kept⟩ := write_loop address rest narrow indices
    (fill buffer (words.map (BitVec.ofNat 32))) within (by omega) board
  rw [writeValues, if_pos several, represents.mem]
  refine ⟨?_, ?_⟩
  · intro i inside
    have bound := fits _ (List.getElem_mem inside)
    show (mem i).toNat = words[i]
    rw [stored i inside, fill_word buffer inside, BitVec.toNat_setWidth, word_to_nat narrow bound,
      Nat.mod_eq_of_lt bound]
  · intro i above _
    exact kept _ (.inl ⟨_, _, represents_of_quiet quiet⟩) i above

end Lists

end Calls

section Empty

variable {bus : Bus ρ} {address : Word} {buffer : ℕ → Word} {device : ρ}

private theorem empty_write_waits {labels : List Label} {c : Config ρ}
    (path : run (Config.step bus) labels (Config.connected buffer device) = some c)
    (called : calls labels = [writeArray address []]) : c.server.log = [] ∧ c.server.device = device := by
  have sent : c.client.requests = requests (calls labels) := requests_run path
  have few : ([] : List ℕ).length ≤ 65533 := Nat.zero_le 65533
  rw [called, requests_cons_ok (write_request address few)] at sent
  obtain ⟨waiting, ⟨-, same⟩ | ⟨-, q, there, outside⟩⟩ := executed_requests path
  · have unexecuted : c.server.log.length ≤ 0 := (waiting [] _ sent).resolve_left fun words => words rfl
    have none_logged : c.server.log = [] := List.length_eq_zero_iff.mp (Nat.le_zero.mp unexecuted)
    have devices := congrArg Server.device same
    rw [none_logged] at devices
    exact ⟨none_logged, devices⟩
  · rw [sent] at there
    obtain rfl := List.mem_singleton.mp there
    exact absurd trivial outside

private theorem empty_write_performed {op : Op} {q : Request} (request : op.request = .ok q) :
    ∃ labels c, Performed bus (writeArray address []) buffer device labels c ∧
      calls labels = [writeArray address [], op] := by
  let waiting : Server ρ := { (Config.connected buffer device).server with
    phase := .body (Request.write address [] (by decide)).header address 0 }
  let sent : Config ρ := ⟨⟨(Request.write address [] (by decide)).phase, [.write address [] (by decide)], []⟩,
    (Config.connected buffer device).server, (Request.write address [] (by decide)).bytes, []⟩
  let timedOut : Config ρ :=
    ⟨⟨.idle, [.write address [] (by decide)], [(0, .raised .timeout)]⟩, waiting, [], []⟩
  have header : serve bus sent.server sent.toServer = some ⟨waiting, [], []⟩ :=
    serve_write_header bus address [] (by decide) rfl []
  have waits : sent.serve bus = some ⟨sent.client, waiting, [], []⟩ := by
    simp only [Config.serve, header]
    rfl
  have first : run (Config.step bus) [.call (writeArray address []), .serve, .timeout]
      (Config.connected buffer device) = some timedOut :=
    run_cons.mpr ⟨sent, rfl, run_cons.mpr ⟨_, waits, rfl⟩⟩
  let asked : Config ρ :=
    ⟨⟨q.phase, [.write address [] (by decide), q], [(0, .raised .timeout)]⟩, waiting, q.bytes, []⟩
  have next : Config.step bus (.call op) timedOut = some asked := by
    simp only [Config.step, Config.call, Client.call, request, timedOut]
    rfl
  have body := serve_write_body bus address [] (by decide) (s := waiting) rfl (.inr (bytes_ne_nil q))
  have executed : Config.step bus .serve asked = some ⟨asked.client,
      (execute bus (.write address [] (by decide)) waiting).1, q.bytes,
      (execute bus (.write address [] (by decide)) waiting).2⟩ := by
    rw [Config.step, Config.serve, show serve bus asked.server asked.toServer = _ from body]
    rfl
  have path : run (Config.step bus)
      ([.call (writeArray address []), .serve, .timeout] ++ [.call op, .serve])
      (Config.connected buffer device) = some _ :=
    run_append.mpr ⟨timedOut, first, run_cons.mpr ⟨asked, next, run_cons.mpr ⟨_, executed, rfl⟩⟩⟩
  refine ⟨_, _, ⟨path, ⟨[op], rfl⟩, rfl, ?_⟩, rfl⟩
  intro failed
  cases failed

end Empty

/-- The empty write times out, and the server executes it when the header of the read arrives. -/
def emptyThenRead : List Label :=
  [.call (writeArray 0x40000000 []), .serve, .timeout, .call (readArray 0x40000000 1), .serve]

end Pypga.Core.ArrayWrite
