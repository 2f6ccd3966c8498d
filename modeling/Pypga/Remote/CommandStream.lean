/- GID: Pypga/Remote/CommandStream
   generality: G
   digest: A stream of complete commands is executed command by command, whatever begins behind it. -/

import Pypga.Remote.RequestExecution

set_option autoImplicit false
set_option relaxedAutoImplicit false

namespace Pypga.Remote.CommandStream

open Pypga.Foundation.LittleEndian
open Pypga.Remote.MonitorServer
open Pypga.Remote.SocketClient (Request)
open Pypga.Remote.RequestExecution

/-- What a client puts into the stream: its requests, and the message of `stop`. -/
inductive Command
  | request (q : Request)
  | close

def closeBytes : List Byte := low 'c'.toNat :: List.replicate 7 0

def Command.bytes : Command → List Byte
  | .request q => q.bytes
  | .close => closeBytes

theorem command_letter (c : Command) : ∃ letter ∈ [low 'r'.toNat, low 'd'.toNat, low 'w'.toNat,
    low 'c'.toNat], ∃ rest, c.bytes = letter :: rest := by
  cases c with
  | request q =>
    cases q with
    | read addr length fits => exact ⟨_, List.mem_cons_self, _, rfl⟩
    | ram offset length fits => exact ⟨low 'd'.toNat, by decide, _, rfl⟩
    | write addr values fits => exact ⟨low 'w'.toNat, by decide, _, rfl⟩
  | close => exact ⟨low 'c'.toNat, by decide, _, rfl⟩

def Command.waits : Command → Bool
  | .request (.write _ [] _) => true
  | _ => false

def ready (part : List Byte) : List Command → List Command
  | [] => []
  | c :: cs => if c.waits && cs.isEmpty && part.isEmpty then [] else c :: ready part cs

variable {δ : Type*} (bus : Bus δ)

def effect (s : Server δ) : Command → Server δ
  | .request q => (execute bus q s).1
  | .close => { s with phase := .closed }

def obey (s : Server δ) (c : Command) : Server δ :=
  if s.phase = .header then effect bus s c else s

def obeyAll (cs : List Command) (s : Server δ) : Server δ := cs.foldl (obey bus) s

def consume : ℕ → Server δ → List Byte → Server δ
  | 0, s, _ => s
  | n + 1, s, input =>
    match serve bus s input with
    | some next => consume n next.server next.unread
    | none => s

def Boundary (s : Server δ) : Prop := s.phase = .header ∨ s.phase = .closed ∨ s.phase = .failed

variable {bus}

private theorem consume_ended {s : Server δ} (ended : s.phase = .closed ∨ s.phase = .failed) (n : ℕ)
    (input : List Byte) : consume bus n s input = s := by
  cases n with
  | zero => rfl
  | succ n => rcases ended with phase | phase <;> simp only [consume, serve, phase]

private theorem consume_served {s : Server δ} {input : List Byte} {next : Served δ}
    (served : serve bus s input = some next) (n : ℕ) :
    consume bus (n + 1) s input = consume bus n next.server next.unread := by
  rw [consume, served]

private theorem obey_ended {s : Server δ} (ended : s.phase = .closed ∨ s.phase = .failed)
    (c : Command) :
    obey bus s c = s := by
  have apart : ¬ s.phase = .header := by rcases ended with phase | phase <;> simp [phase]
  exact if_neg apart

private theorem obey_header {s : Server δ} (phase : s.phase = .header) (c : Command) :
    obey bus s c = effect bus s c := if_pos phase

variable (bus) in
private theorem obey_boundary {s : Server δ} (boundary : Boundary s) (c : Command) :
    Boundary (obey bus s c) := by
  rcases boundary with phase | ended
  · have alive : s.phase ≠ .failed := by simp [phase]
    rw [obey_header phase]
    cases c with
    | request q =>
      rcases execute_cases bus q alive with done | ⟨-, fault⟩
      · exact .inl done.phase
      · exact .inr (.inr fault.phase)
    | close => exact .inr (.inl rfl)
  · rw [obey_ended ended]
    exact .inr ended

private theorem obey_all_ended {s : Server δ} (ended : s.phase = .closed ∨ s.phase = .failed)
    (cs : List Command) : obeyAll bus cs s = s := by
  induction cs with
  | nil => rfl
  | cons c cs ih =>
    rw [obeyAll, List.foldl_cons, obey_ended ended]
    exact ih

variable (bus) in
private theorem serve_write_header_waits {s : Server δ} (phase : s.phase = .header) {c : Command}
    (waits : c.waits = true) : ∃ next, serve bus s c.bytes = some next ∧
      serve bus next.server next.unread = none ∧ next.server.log = s.log := by
  match c with
  | .request (.write addr [] fits) =>
    have header := serve_write_header bus addr [] fits phase []
    exact ⟨_, header, serve_empty_body bus rfl, rfl⟩
  | .request (.write _ (_ :: _) _) => cases waits
  | .request (.read _ _ _) => cases waits
  | .request (.ram _ _ _) => cases waits
  | .close => cases waits

private theorem consume_command {s : Server δ} (phase : s.phase = .header) (c : Command) (n : ℕ)
    {rest : List Byte} (arrived : c.waits = false ∨ rest ≠ []) :
    ∃ m, n ≤ m ∧ consume bus (n + 2) s (c.bytes ++ rest) = consume bus m (obey bus s c) rest := by
  rw [obey_header phase]
  cases c with
  | request q =>
    cases q with
    | read addr length fits =>
      exact ⟨n + 1, Nat.le_succ n, consume_served (serve_read bus addr length fits phase rest) _⟩
    | ram offset length fits =>
      exact ⟨n + 1, Nat.le_succ n, consume_served (serve_ram bus offset length fits phase rest) _⟩
    | write addr values fits =>
      refine ⟨n, le_rfl, ?_⟩
      have alive : s.phase ≠ .failed := by simp [phase]
      have some_byte : values ≠ [] ∨ rest ≠ [] := by
        refine arrived.imp_left fun waits => ?_
        rintro rfl
        cases waits
      have header := serve_write_header bus addr values fits phase (encode values ++ rest)
      have body := serve_write_body bus addr values fits (s := { s with
        phase := .body (Request.write addr values fits).header addr values.length }) rfl some_byte
      rw [Command.bytes, Request.bytes, List.append_assoc, Request.body, consume_served header]
      show consume bus (n + 1) _ (encode values ++ rest) = _
      rw [consume_served body, execute_alive bus (by simp), effect, execute_alive bus alive]
      rfl
  | close =>
    refine ⟨n + 1, Nat.le_succ n, ?_⟩
    have closes : serve bus s (closeBytes ++ rest) = some ⟨{ s with phase := .closed }, rest, []⟩ := by
      simp only [serve, phase, closeBytes, List.replicate, List.cons_append, List.nil_append]
      rfl
    exact consume_served closes (n + 1)

private theorem serve_short {s : Server δ} (phase : s.phase = .header) {input : List Byte}
    (short : input.length < 8) : serve bus s input = none := by
  simp only [serve, phase]
  split
  · rename_i b₀ b₁ b₂ b₃ b₄ b₅ b₆ b₇ rest
    simp only [List.length_cons] at short
    omega
  · rfl

private theorem consume_waiting {s : Server δ} {input : List Byte}
    (waiting : serve bus s input = none) (n : ℕ) : consume bus n s input = s := by
  cases n with
  | zero => rfl
  | succ n => rw [consume, waiting]

section Beginning

variable {q : Request} {part missing : List Byte} (begins : part ++ missing = q.bytes)
variable (incomplete : missing ≠ [])
include begins incomplete

private theorem consume_incomplete {s : Server δ} (boundary : Boundary s) (n : ℕ) :
    (consume bus n s part).log = s.log := by
  have total : part.length + missing.length = 8 + q.body.length := by
    rw [← List.length_append, begins, Request.bytes, List.length_append, header_length]
  have positive : 0 < missing.length := List.length_pos_iff.mpr incomplete
  rcases boundary with phase | ended
  · by_cases short : part.length < 8
    · rw [consume_waiting (serve_short phase short)]
    · cases q with
      | read addr length fits =>
        have alone : (Request.read addr length fits).body.length = 0 := rfl
        omega
      | ram offset length fits =>
        have alone : (Request.ram offset length fits).body.length = 0 := rfl
        omega
      | write addr values fits =>
        -- the header is complete, and the server waits for the rest of the body
        have body : (Request.write addr values fits).body.length = 4 * values.length :=
          encode_length values
        have head : part.take 8 = (Request.write addr values fits).header := by
          have first := congrArg (List.take 8) begins
          rw [List.take_append_of_le_length (by omega), Request.bytes,
            List.take_left' (header_length _)] at first
          exact first
        have few : (part.drop 8).length < max 1 (4 * values.length) := by
          rw [List.length_drop]
          omega
        have served := serve_write_header bus addr values fits phase (part.drop 8)
        rw [← head, List.take_append_drop] at served
        cases n with
        | zero => rfl
        | succ n =>
          have waits : serve bus { s with phase := .body (part.take 8) addr values.length }
              (part.drop 8) = none := by
            simp only [serve, if_pos few]
          rw [consume_served served]
          show (consume bus n { s with phase := .body (part.take 8) addr values.length }
            (part.drop 8)).log = s.log
          rw [consume_waiting waits]
  · rw [consume_ended ended]

variable (bus) in
/-- Enough receives execute the complete commands, but for an empty write at the very end. -/
theorem consume_commands (cs : List Command) : ∀ {s : Server δ} (n : ℕ), Boundary s →
    (consume bus (n + 2 * cs.length) s (cs.flatMap Command.bytes ++ part)).log =
      (obeyAll bus (ready part cs) s).log := by
  induction cs with
  | nil => exact fun n boundary => consume_incomplete begins incomplete boundary n
  | cons c cs ih =>
    intro s n boundary
    have fuel : n + 2 * (c :: cs).length = n + 2 * cs.length + 2 := by
      rw [List.length_cons]
      omega
    rw [fuel, List.flatMap_cons, List.append_assoc]
    rcases boundary with phase | ended
    · by_cases waiting : (c.waits && cs.isEmpty && part.isEmpty) = true
      · simp only [Bool.and_eq_true, List.isEmpty_iff] at waiting
        obtain ⟨⟨waits, rfl⟩, rfl⟩ := waiting
        obtain ⟨next, first, stuck, kept⟩ := serve_write_header_waits bus phase waits
        have none_ready : ready [] [c] = [] := by simp [ready, waits]
        rw [none_ready, List.flatMap_nil, List.append_nil, List.append_nil, consume_served first,
          consume_waiting stuck, kept]
        rfl
      · have arrived : c.waits = false ∨ cs.flatMap Command.bytes ++ part ≠ [] := by
          by_contra none_arrived
          push Not at none_arrived
          obtain ⟨waits, nothing⟩ := none_arrived
          obtain ⟨no_bytes, no_part⟩ := List.append_eq_nil_iff.mp nothing
          have last : cs = [] := by
            cases cs with
            | nil => rfl
            | cons d ds =>
              obtain ⟨letter, -, rest, begun⟩ := command_letter d
              simp [begun] at no_bytes
          simp [last, no_part] at waiting
          exact waits waiting
        have goes : ready part (c :: cs) = c :: ready part cs := if_neg waiting
        obtain ⟨k, enough, first⟩ := consume_command phase c (n + 2 * cs.length) arrived
        have others := ih (k - 2 * cs.length) (obey_boundary bus (.inl phase) c)
        have same : k - 2 * cs.length + 2 * cs.length = k := by omega
        rw [same] at others
        rw [first, others, goes]
        rfl
    · rw [consume_ended ended, obey_all_ended ended]

end Beginning

end Pypga.Remote.CommandStream
