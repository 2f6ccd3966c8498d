/- GID: Pypga/Remote/OrderlySession
   generality: G
   digest: Without timeouts and with whole acknowledgements every call gets exactly the reply to its own request. -/

import Pypga.Remote.DirectAccess
import Pypga.Remote.OrderedSession

set_option autoImplicit false
set_option relaxedAutoImplicit false

namespace Pypga.Remote.OrderlySession

open Pypga.Foundation.LittleEndian (Byte decode)
open Pypga.Remote.MonitorServer (Bus Execution)
open Pypga.Remote.SocketClient
open Pypga.Remote.RequestExecution
open Pypga.Remote.DirectAccess
open Pypga.Remote.Connection (Label)
open Pypga.Remote.OrderedSession

variable {δ : Type*}

def answers (log : List Execution) : List (ℕ × Outcome) := log.mapIdx fun i e => (i, outcome e)

private theorem answers_append (log : List Execution) (e : Execution) :
    answers (log ++ [e]) = answers log ++ [(log.length, outcome e)] := by
  simp [answers, List.mapIdx_append]

/-- Where an orderly session stands: between two calls, or with the reply to the last request,
and nothing else, on its way. -/
inductive Stage (s : Session δ) : Prop
  | idle (phase : s.client.phase = .idle) (stream : s.stream = [])
      (returned : s.client.returned = answers s.server.log)
  | response (header payload data : List Byte) (length : ℕ) (again : Bool)
      (log : List Execution) (e : Execution)
      (phase : s.client.phase = .response header length data again)
      (eight : header.length = 8) (size : payload.length = 4 * length)
      (rest : data ++ s.stream = header ++ payload) (short : data.length < length * 4 + 8)
      (logged : s.server.log = log ++ [e]) (carries : outcome e = .words (decode payload))
      (returned : s.client.returned = answers log)
  | acknowledgement (header : List Byte) (log : List Execution) (e : Execution)
      (phase : s.client.phase = .acknowledgement header)
      (eight : header.length = 8) (rest : s.stream = header)
      (logged : s.server.log = log ++ [e]) (carries : outcome e = .done)
      (returned : s.client.returned = answers log)

structure Orderly (s : Session δ) : Prop where
  stage : Stage s
  alive : s.server.phase = .header
  counted : s.server.log.length = s.client.requests.length

def Carried (op : Op) : Prop := ∃ q, op.request = .ok q ∧ mappedArea q

/-- A call that is carried and answered without a byte behind its request. -/
def Answered (op : Op) : Prop := ∃ q, op.request = .ok q ∧ mappedArea q ∧ prompt q

/-- The steps of an undisturbed connection: no timeout, and an acknowledgement in one piece. -/
def Undisturbed (l : Label) (c : Client) : Prop :=
  match l with
  | .call op => Carried op
  | .receive bytes => c.phase.acknowledging = true → bytes = 8
  | .timeout => False
  | _ => True

variable {bus : Bus δ}

private theorem orderly_call {op : Op} {s t : Session δ} (orderly : Orderly s)
    (carried : Carried op) (moved : s.call bus op = some t) : Orderly t := by
  obtain ⟨q, request, mapped⟩ := carried
  cases called : s.client.call op with
  | none => simp [Session.call, called] at moved
  | some next =>
    obtain ⟨client, sent⟩ := next
    simp only [Session.call, called, request, Option.some.injEq] at moved
    obtain ⟨idle, ⟨p, same, -, rfl⟩ | ⟨e, wrong, -, -⟩⟩ := Client.call_cases called
    · obtain rfl : q = p := by
        rw [request] at same
        exact Except.ok.inj same
      have alive : s.server.phase ≠ .failed := by simp [orderly.alive]
      have done : Executed q s.server (execute bus q s.server).1 (execute bus q s.server).2 := by
        rcases execute_cases bus q alive with done | ⟨outside, -⟩
        · exact done
        · exact absurd mapped outside
      obtain ⟨payload, size, reply, log⟩ := done.answer
      have stage := orderly.stage
      cases stage with
      | idle phase stream returned =>
        subst moved
        refine ⟨?_, done.phase, ?_⟩
        · cases q with
          | read addr length fits =>
            exact .response _ payload [] length false s.server.log _ rfl (header_length _) size
              (by rw [stream, reply]; rfl) (by simp) log rfl returned
          | ram offset length fits =>
            exact .response _ payload [] length false s.server.log _ rfl (header_length _) size
              (by rw [stream, reply]; rfl) (by simp) log rfl returned
          | write addr values fits =>
            obtain rfl : payload = [] := List.length_eq_zero_iff.mp size
            exact .acknowledgement _ s.server.log _ rfl (header_length _)
              (by rw [stream, reply, List.append_nil]; rfl) log rfl returned
        · rw [log, List.length_append, List.length_append, orderly.counted]
          rfl
      | response header payload' data length again log' e phase => simp [idle] at phase
      | acknowledgement header log' e phase => simp [idle] at phase
    · rw [request] at wrong
      cases wrong

private theorem orderly_receive {bytes : ℕ} {s t : Session δ} (orderly : Orderly s)
    (whole : s.client.phase.acknowledging = true → bytes = 8)
    (moved : s.receive bytes = some t) : Orderly t := by
  obtain ⟨stage, alive, counted⟩ := orderly
  cases stage with
  | idle phase stream returned =>
    simp [Session.receive, Client.wanted, phase] at moved
  | response header payload data length again log e phase eight size rest short logged carries
      returned =>
    simp only [Session.receive, Client.wanted_response phase, Option.ite_none_right_eq_some,
      Option.some.injEq] at moved
    obtain ⟨⟨positive, within, there⟩, rfl⟩ := moved
    have split : (data ++ s.stream.take bytes) ++ s.stream.drop bytes = header ++ payload := by
      rw [List.append_assoc, List.take_append_drop, rest]
    by_cases more : (data ++ s.stream.take bytes).length < length * 4 + 8
    · rw [Client.deliver_more phase more]
      exact ⟨.response header payload _ length true log e rfl eight size split more logged carries
        returned, alive, counted⟩
    · rw [Client.deliver_last phase more]
      -- the loop has read the whole reply, so nothing is left behind it
      have total : (data ++ s.stream.take bytes).length + (s.stream.drop bytes).length =
          header.length + payload.length := by
        rw [← List.length_append, split, List.length_append]
      rw [eight, size] at total
      have nothing : s.stream.drop bytes = [] := List.length_eq_zero_iff.mp (by omega)
      rw [nothing, List.append_nil] at split
      have head : (header ++ payload).take 8 = header := List.take_left' eight
      have tail : (header ++ payload).drop 8 = payload := List.drop_left' eight
      have words : payload.length % 4 = 0 := by omega
      rw [split, Client.checked, if_pos head, tail, frombuffer, if_pos words, nothing]
      refine ⟨.idle rfl rfl ?_, alive, counted⟩
      show s.client.returned ++ [(s.client.requests.length - 1, Outcome.words (decode payload))] = _
      rw [logged, answers_append, returned, ← counted, logged, List.length_append, carries]
      rfl
  | acknowledgement header log e phase eight rest logged carries returned =>
    simp only [Session.receive, Client.wanted_acknowledgement phase,
      Option.ite_none_right_eq_some, Option.some.injEq] at moved
    obtain ⟨-, rfl⟩ := moved
    obtain rfl := whole (by rw [phase]; rfl)
    have piece : s.stream.take 8 = header := by rw [rest, List.take_of_length_le eight.le]
    have nothing : s.stream.drop 8 = [] := by rw [rest, List.drop_of_length_le eight.le]
    rw [Client.deliver_acknowledgement false phase, if_pos piece, nothing]
    refine ⟨.idle rfl rfl ?_, alive, counted⟩
    show s.client.returned ++ [(s.client.requests.length - 1, Outcome.done)] = _
    rw [logged, answers_append, returned, ← counted, logged, List.length_append, carries]
    rfl

/-- Undisturbed steps keep a session orderly. -/
theorem orderly_step {l : Label} {s t : Session δ} (orderly : Orderly s)
    (undisturbed : Undisturbed l s.client) (moved : s.step bus l = some t) : Orderly t := by
  cases l with
  | start token => cases moved
  | call op => exact orderly_call orderly undisturbed moved
  | serve =>
    obtain rfl := Option.some.inj moved
    exact orderly
  | receive bytes => exact orderly_receive orderly undisturbed moved
  | endOfStream late =>
    simp [Session.step, Session.endOfStream, orderly.alive] at moved
  | timeout => exact undisturbed.elim

end Pypga.Remote.OrderlySession
