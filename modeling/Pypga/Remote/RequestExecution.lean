/- GID: Pypga/Remote/RequestExecution
   generality: G
   digest: The service loop decodes every request the client encodes and executes it with its own arguments. -/

import Pypga.Remote.MonitorServer
import Pypga.Remote.SocketClient

set_option autoImplicit false
set_option relaxedAutoImplicit false

namespace Pypga.Remote.RequestExecution

open Pypga.Foundation.LittleEndian
open Pypga.Remote.MonitorServer
open Pypga.Remote.SocketClient

variable {δ : Type*} (bus : Bus δ)

def answered : Request → ℕ
  | .read _ length _ => length
  | .ram _ length _ => length
  | .write _ _ _ => 0

def record (words : List Word) : Request → Execution
  | .read addr length _ => .readValues addr length words
  | .ram offset length _ => .ramCopy (offset &&& ramMask) length words
  | .write addr values _ => .writeValues addr values

def perform (q : Request) (s : Server δ) : Server δ × List Byte :=
  match q with
  | .read addr length _ => s.read bus q.header addr length
  | .ram offset length _ => s.copy bus q.header offset length
  | .write addr values _ => s.write bus q.header addr values.length (encode values)

def execute (q : Request) (s : Server δ) : Server δ × List Byte :=
  if s.phase = .failed then (s, []) else perform bus q s

def executeAll : List Request → Server δ → Server δ × List Byte
  | [], s => (s, [])
  | q :: qs, s =>
    let first := execute bus q s
    let rest := executeAll qs first.1
    (rest.1, first.2 ++ rest.2)

@[simp] theorem header_length (q : Request) : q.header.length = 8 := by
  cases q <;> rfl

theorem bytes_ne_nil (q : Request) : q.bytes ≠ [] := by
  have size : q.bytes.length = 8 + q.body.length := by
    rw [Request.bytes, List.length_append, header_length]
  exact List.length_pos_iff.mp (by omega)

theorem execute_failed {s : Server δ} (ended : s.phase = .failed) (q : Request) :
    execute bus q s = (s, []) := if_pos ended

theorem execute_alive {s : Server δ} (alive : s.phase ≠ .failed) (q : Request) :
    execute bus q s = perform bus q s := if_neg alive

theorem execute_all_failed {s : Server δ} (ended : s.phase = .failed) (qs : List Request) :
    executeAll bus qs s = (s, []) := by
  induction qs with
  | nil => rfl
  | cons q qs ih => simp [executeAll, execute_failed bus ended, ih]

theorem execute_all_append (qs rs : List Request) (s : Server δ) :
    executeAll bus (qs ++ rs) s =
      ((executeAll bus rs (executeAll bus qs s).1).1,
        (executeAll bus qs s).2 ++ (executeAll bus rs (executeAll bus qs s).1).2) := by
  induction qs generalizing s with
  | nil => rfl
  | cons q qs ih => simp [executeAll, ih, List.append_assoc]

private theorem entries_length (buffer : ℕ → Word) (length : ℕ) :
    (entries buffer length).length = length := by
  simp [entries]

theorem entries_fill (buffer : ℕ → Word) (words : List Word) :
    entries (fill buffer words) words.length = words := by
  apply List.ext_getElem
  · exact entries_length _ _
  · intro i inside bound
    simp [entries, fill, bound]

private theorem ram_copy_length_le (offset n : ℕ) (d : δ) :
    (ramCopy bus offset n d).1.length ≤ n := by
  induction n generalizing offset d with
  | zero => exact le_rfl
  | succ n ih =>
    rw [ramCopy]
    cases bus.fetch offset d with
    | none => exact Nat.zero_le _
    | some found => exact Nat.succ_le_succ (ih (offset + 1) found.2)

theorem ram_copy_length {offset n : ℕ} (inside : offset + n ≤ ramSize) (d : δ) :
    (ramCopy bus offset n d).1.length = n := by
  induction n generalizing offset d with
  | zero => rfl
  | succ n ih =>
    have mapped := bus.mapped offset d (by omega)
    obtain ⟨found, is⟩ := Option.isSome_iff_exists.mp mapped
    rw [ramCopy, is]
    exact congrArg Nat.succ (ih (by omega) found.2)

structure Executed (q : Request) (s next : Server δ) (reply : List Byte) : Prop where
  phase : next.phase = .header
  answer : ∃ payload, payload.length = 4 * answered q ∧ reply = q.header ++ payload ∧
    next.log = s.log ++ [record (decode payload) q]

structure Faulted (q : Request) (s next : Server δ) (reply : List Byte) : Prop where
  phase : next.phase = .failed
  log : next.log = s.log
  short : reply.length < 8 + 4 * answered q

def mappedArea : Request → Prop
  | .ram offset length _ => (offset &&& ramMask).toNat + 4 * length ≤ ramSize
  | _ => True

/-- The requests that the server executes without a byte behind them. -/
def prompt : Request → Prop
  | .write _ values _ => values ≠ []
  | _ => True

private theorem executed_read (addr : Word) (length : ℕ) (fits : length ≤ 65535) {s : Server δ}
    (alive : s.phase ≠ .failed) :
    Executed (.read addr length fits) s (execute bus (.read addr length fits) s).1
      (execute bus (.read addr length fits) s).2 := by
  rw [execute_alive bus alive]
  refine ⟨rfl, encode (entries (readValues bus addr length (s.buffer, s.device)).1 length),
    ?_, rfl, ?_⟩
  · rw [encode_length, entries_length]
    rfl
  · rw [decode_encode]
    rfl

private theorem executed_write (addr : Word) (values : List Word) (fits : values.length ≤ 65533)
    {s : Server δ} (alive : s.phase ≠ .failed) :
    Executed (.write addr values fits) s (execute bus (.write addr values fits) s).1
      (execute bus (.write addr values fits) s).2 := by
  rw [execute_alive bus alive]
  refine ⟨rfl, [], rfl, (List.append_nil _).symm, ?_⟩
  simp only [perform, Server.write, record, decode_encode, entries_fill]

private theorem execute_ram (offset : Word) (length : ℕ) (fits : length < 2 ^ 23) {s : Server δ}
    (alive : s.phase ≠ .failed) :
    Executed (.ram offset length fits) s (execute bus (.ram offset length fits) s).1
        (execute bus (.ram offset length fits) s).2 ∨
      ¬ mappedArea (.ram offset length fits) ∧
        Faulted (.ram offset length fits) s (execute bus (.ram offset length fits) s).1
          (execute bus (.ram offset length fits) s).2 := by
  rw [execute_alive bus alive]
  simp only [perform, Server.copy]
  split
  · rename_i complete
    exact .inl ⟨rfl, _, complete, rfl, rfl⟩
  · rename_i broken
    have most := ram_copy_length_le bus (offset &&& ramMask).toNat (4 * length) s.device
    refine .inr ⟨fun inside => broken (ram_copy_length bus inside s.device), rfl, rfl, ?_⟩
    rw [List.length_append, header_length, answered, List.length_take]
    omega

theorem execute_cases (q : Request) {s : Server δ} (alive : s.phase ≠ .failed) :
    Executed q s (execute bus q s).1 (execute bus q s).2 ∨
      ¬ mappedArea q ∧ Faulted q s (execute bus q s).1 (execute bus q s).2 := by
  cases q with
  | read addr length fits => exact .inl (executed_read bus addr length fits alive)
  | ram offset length fits => exact execute_ram bus offset length fits alive
  | write addr values fits => exact .inl (executed_write bus addr values fits alive)

theorem execute_log_le (q : Request) {s : Server δ} (alive : s.phase ≠ .failed) :
    (execute bus q s).1.log.length ≤ s.log.length + 1 := by
  rcases execute_cases bus q alive with done | ⟨-, fault⟩
  · obtain ⟨payload, -, -, log⟩ := done.answer
    rw [log, List.length_append, List.length_singleton]
  · rw [fault.log]
    exact Nat.le_succ _

/-- The requests the server still has to execute are its unread bytes, from a header boundary
or from the body of a write on; a process that has ended reads nothing. -/
inductive Awaits (s : Server δ) : List Byte → List Request → Prop
  | header (qs : List Request) (phase : s.phase = .header) :
      Awaits s (qs.flatMap Request.bytes) qs
  | body (addr : Word) (values : List Word) (fits : values.length ≤ 65533) (qs : List Request)
      (phase : s.phase = .body (Request.write addr values fits).header addr values.length) :
      Awaits s (encode values ++ qs.flatMap Request.bytes) (.write addr values fits :: qs)
  | failed (input : List Byte) (qs : List Request) (phase : s.phase = .failed) :
      Awaits s input qs

theorem serve_read (addr : Word) (length : ℕ) (fits : length ≤ 65535) {s : Server δ}
    (phase : s.phase = .header) (rest : List Byte) :
    serve bus s ((Request.read addr length fits).bytes ++ rest) =
      some ⟨(execute bus (.read addr length fits) s).1, rest,
        (execute bus (.read addr length fits) s).2⟩ := by
  have short : ¬ maxLength < length := by
    rw [maxLength]
    omega
  have alive : s.phase ≠ .failed := by
    intro ended
    cases phase.symm.trans ended
  have sum := two_bytes (n := length) (by omega)
  simp only [serve, phase, Request.bytes, Request.header, Request.body, addressBytes,
    List.cons_append, List.nil_append, Server.command, sum, ofBytes_low, if_neg short,
    execute_alive bus alive]
  rfl

theorem serve_ram (offset : Word) (length : ℕ) (fits : length < 2 ^ 23) {s : Server δ}
    (phase : s.phase = .header) (rest : List Byte) :
    serve bus s ((Request.ram offset length fits).bytes ++ rest) =
      some ⟨(execute bus (.ram offset length fits) s).1, rest,
        (execute bus (.ram offset length fits) s).2⟩ := by
  have short : ¬ maxLength <
      (low (length >>> 8)).toNat + ((low (length >>> 16)).toNat <<< 8) := by
    simp only [maxLength, low_toNat, Nat.shiftLeft_eq]
    omega
  have alive : s.phase ≠ .failed := by
    intro ended
    cases phase.symm.trans ended
  have sum := three_bytes (n := length) (by omega)
  have other : ¬ low 'd'.toNat = low 'r'.toNat := by decide
  simp only [serve, phase, Request.bytes, Request.header, Request.body, addressBytes,
    List.cons_append, List.nil_append, Server.command, sum, ofBytes_low, if_neg short,
    if_neg other, execute_alive bus alive]
  rfl

theorem serve_write_header (addr : Word) (values : List Word) (fits : values.length ≤ 65533)
    {s : Server δ} (phase : s.phase = .header) (rest : List Byte) :
    serve bus s ((Request.write addr values fits).header ++ rest) =
      some ⟨{ s with phase := .body (Request.write addr values fits).header addr values.length },
        rest, []⟩ := by
  have short : ¬ maxLength < values.length := by
    rw [maxLength]
    omega
  have sum := two_bytes (n := values.length) (by omega)
  have other : ¬ low 'w'.toNat = low 'r'.toNat := by decide
  have another : ¬ low 'w'.toNat = low 'd'.toNat := by decide
  simp only [serve, phase, Request.header, addressBytes, List.cons_append, List.nil_append,
    Server.command, sum, ofBytes_low, if_neg short, if_neg other, if_neg another]
  rfl

theorem serve_write_body (addr : Word) (values : List Word) (fits : values.length ≤ 65533)
    {s : Server δ}
    (phase : s.phase = .body (Request.write addr values fits).header addr values.length)
    {rest : List Byte} (arrived : values ≠ [] ∨ rest ≠ []) :
    serve bus s (encode values ++ rest) =
      some ⟨(execute bus (.write addr values fits) s).1, rest,
        (execute bus (.write addr values fits) s).2⟩ := by
  have alive : s.phase ≠ .failed := by
    intro ended
    cases phase.symm.trans ended
  have one : 0 < values.length ∨ 0 < rest.length :=
    arrived.imp List.length_pos_iff.mpr List.length_pos_iff.mpr
  have long : ¬ (encode values ++ rest).length < max 1 (4 * values.length) := by
    rw [List.length_append, encode_length]
    omega
  have body : (encode values ++ rest).take (4 * values.length) = encode values :=
    List.take_left' (encode_length values)
  have after : (encode values ++ rest).drop (4 * values.length) = rest :=
    List.drop_left' (encode_length values)
  simp only [serve, phase, if_neg long, body, after, execute_alive bus alive]
  rfl

/-- Without a byte behind it the body of an empty write is waited for. -/
theorem serve_empty_body {s : Server δ} {header : List Byte} {addr : Word}
    (phase : s.phase = .body header addr 0) : serve bus s [] = none := by
  simp [serve, phase]

end Pypga.Remote.RequestExecution
