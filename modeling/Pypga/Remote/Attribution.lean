/- GID: Pypga/Remote/Attribution
   generality: G
   digest: Over all delays and timeouts a read returns the words of its own request, if it starts fresh. -/

import Pypga.Foundation.Waveform
import Pypga.Remote.ProtocolRefinement

set_option autoImplicit false
set_option relaxedAutoImplicit false

namespace Pypga.Remote.Attribution

open Pypga.Foundation.LabelledRun
open Pypga.Foundation.Waveform (getElem?_of_longer)
open Pypga.Foundation.LittleEndian (Byte Word decode)
open Pypga.Remote.MonitorServer (Bus Server Execution serve latch)
open Pypga.Remote.SocketClient
open Pypga.Remote.RequestExecution
open Pypga.Remote.Connection
open Pypga.Remote.OrderedSession
open Pypga.Remote.ProtocolRefinement

variable {δ : Type*}

def reading : Request → Bool
  | .read _ _ _ => true
  | .ram _ _ _ => true
  | .write _ _ _ => false

/-- A read is sent while no byte of an earlier reply is still to arrive, or while the next eight
bytes to arrive are not its header. -/
def FreshRequest (bus : Bus δ) (c : Config δ) : Except Error Request → Prop
  | .ok q => reading q = true →
      outstanding bus c = [] ∨ (outstanding bus c ++ q.header).take 8 ≠ q.header
  | .error _ => True

def Fresh (bus : Bus δ) (l : Label) (c : Config δ) : Prop :=
  match l with
  | .call op => FreshRequest bus c op.request
  | _ => True

instance (bus : Bus δ) (c : Config δ) (request : Except Error Request) :
    Decidable (FreshRequest bus c request) :=
  match request with
  | .ok q => inferInstanceAs (Decidable (reading q = true → outstanding bus c = [] ∨
      (outstanding bus c ++ q.header).take 8 ≠ q.header))
  | .error _ => .isTrue trivial

instance (bus : Bus δ) (l : Label) (c : Config δ) : Decidable (Fresh bus l c) :=
  match l with
  | .call op => inferInstanceAs (Decidable (FreshRequest bus c op.request))
  | .start _ => .isTrue trivial
  | .serve => .isTrue trivial
  | .receive _ => .isTrue trivial
  | .endOfStream _ => .isTrue trivial
  | .timeout => .isTrue trivial

def Produced (sent : List Request) (log : List Execution) (k : ℕ) (ws : List Word) : Prop :=
  ∃ q, sent[k]? = some q ∧ reading q = true ∧ log[k]? = some (record ws q)

private theorem produced_mono {sent more : List Request} {log log' : List Execution} {k : ℕ}
    {ws : List Word} (produced : Produced sent log k ws) (longer : sent <+: more)
    (kept : log <+: log') : Produced more log' k ws := by
  obtain ⟨q, asked, reads, recorded⟩ := produced
  exact ⟨q, getElem?_of_longer longer asked, reads, getElem?_of_longer kept recorded⟩

/-- What a receive loop has read and will read: the outstanding bytes of before, then the reply
to its own request, which a failing server may leave incomplete. -/
structure OnItsWay (s : Session δ) (header : List Byte) (length : ℕ) (data : List Byte) :
    Prop where
  eight : header.length = 8
  short : data.length < length * 4 + 8
  reply : ∃ stale own payload, data ++ s.stream = stale ++ own ∧ own <+: header ++ payload ∧
    (stale = [] ∨ (stale ++ header).take 8 ≠ header) ∧
    (length * 4 + 8 ≤ own.length → own.length = length * 4 + 8 ∧
      Produced s.client.requests s.server.log (s.client.requests.length - 1) (decode (own.drop 8)))

structure Attributed (bus : Bus δ) (c : Config δ) : Prop where
  inStep : InStep c
  counted : (session bus c).server.phase ≠ .failed →
    (session bus c).server.log.length = c.client.requests.length
  returned : ∀ k ws, (k, Outcome.words ws) ∈ c.client.returned →
    Produced c.client.requests c.server.log k ws
  onItsWay : ∀ header length data again,
    c.client.phase = .response header length data again →
    OnItsWay (session bus c) header length data

variable {bus : Bus δ}

private theorem session_server_of_settled {c : Config δ} (settled : outstanding bus c = []) :
    (session bus c).server = c.server := by
  have replies := (List.append_eq_nil_iff.mp settled).2
  show (executeAll bus (pending c) c.server).1 = c.server
  by_cases ended : c.server.phase = .failed
  · rw [execute_all_failed bus ended]
  · cases todo : pending c with
    | nil => rfl
    | cons q qs =>
      obtain ⟨rest, reply⟩ := perform_reply bus q c.server
      rw [todo, executeAll, execute_alive bus ended, reply] at replies
      have long := congrArg List.length replies
      simp at long

private theorem on_its_way_call {q : Request} {s t : Session δ} {header data : List Byte}
    {length : ℕ} {again : Bool} (reply : q.phase = .response header length data again)
    (counted : s.server.phase ≠ .failed → s.server.log.length = s.client.requests.length)
    (fresh : reading q = true → s.stream = [] ∨ (s.stream ++ q.header).take 8 ≠ q.header)
    (sent : t.client.requests = s.client.requests ++ [q])
    (server : t.server = (execute bus q s.server).1)
    (stream : t.stream = s.stream ++ (execute bus q s.server).2) :
    OnItsWay t header length data := by
  obtain ⟨reads, rfl, rfl, rfl⟩ :
      reading q = true ∧ header = q.header ∧ length = answered q ∧ data = [] := by
    cases q with
    | read addr n fits => cases reply; exact ⟨rfl, rfl, rfl, rfl⟩
    | ram offset n fits => cases reply; exact ⟨rfl, rfl, rfl, rfl⟩
    | write addr values fits => cases reply
  refine ⟨header_length q, by simp, s.stream, (execute bus q s.server).2, ?_⟩
  by_cases ended : s.server.phase = .failed
  · rw [stream, execute_failed bus ended]
    exact ⟨[], rfl, List.nil_prefix, fresh reads, fun full => absurd full (by simp)⟩
  · obtain ⟨rest, begins⟩ := perform_reply bus q s.server
    refine ⟨rest, by rw [stream]; rfl, ?_, fresh reads, fun full => ?_⟩
    · exact ⟨[], by rw [List.append_nil, execute_alive bus ended, begins]⟩
    · rcases execute_cases bus q ended with done | ⟨-, fault⟩
      · obtain ⟨payload, size, whole, log⟩ := done.answer
        have after : (q.header ++ payload).drop 8 = payload := List.drop_left' (header_length q)
        refine ⟨by rw [whole, List.length_append, header_length, size]; omega, q, ?_, reads, ?_⟩
        · rw [sent]
          simp
        · rw [sent, server, whole, after, log, List.length_append, List.length_singleton,
            Nat.add_sub_cancel, ← counted ended]
          simp
      · have short := fault.short
        omega

private theorem counted_execute {q : Request} {s : Server δ} {n : ℕ}
    (counted : s.phase ≠ .failed → s.log.length = n)
    (alive : (execute bus q s).1.phase ≠ .failed) : (execute bus q s).1.log.length = n + 1 := by
  by_cases ended : s.phase = .failed
  · rw [execute_failed bus ended] at alive
    exact absurd ended alive
  · rcases execute_cases bus q ended with done | ⟨-, fault⟩
    · obtain ⟨payload, -, -, log⟩ := done.answer
      rw [log, List.length_append, counted ended]
      rfl
    · exact absurd fault.phase alive

private theorem attributed_call {op : Op} {c d : Config δ} (attributed : Attributed bus c)
    (fresh : Fresh bus (.call op) c) (moved : c.call op = some d) : Attributed bus d := by
  obtain ⟨after, same⟩ := session_step bus (l := .call op) attributed.inStep moved
  obtain ⟨-, counted, returned, -⟩ := attributed
  obtain ⟨client, sent, called, rfl⟩ := Config.call_cases moved
  obtain ⟨idle, ⟨q, request, rfl, rfl⟩ | ⟨e, request, rfl, rfl⟩⟩ := Client.call_cases called
  · obtain ⟨server, stream⟩ := Session.call_executes request same
    have reads : reading q = true → outstanding bus c = [] ∨
        (outstanding bus c ++ q.header).take 8 ≠ q.header := by
      rw [Fresh, request] at fresh
      exact fresh
    refine ⟨after, ?_, ?_, ?_⟩
    · rw [server, List.length_append]
      exact counted_execute counted
    · intro k ws inside
      exact produced_mono (returned k ws inside) (List.prefix_append _ _) List.prefix_rfl
    · intro header length data again reply
      exact on_its_way_call reply counted reads rfl server stream
  · have server := Session.call_refused request same
    refine ⟨after, ?_, ?_, ?_⟩
    · rw [server]
      exact counted
    · intro k ws inside
      rcases List.mem_append.mp inside with before | last
      · exact returned k ws before
      · simp at last
    · intro header length data again reply
      have still : c.client.phase = .response header length data again := reply
      cases idle.symm.trans still

private theorem attributed_serve {c d : Config δ} (attributed : Attributed bus c)
    (moved : c.serve bus = some d) : Attributed bus d := by
  obtain ⟨inStep, counted, returned, onItsWay⟩ := attributed
  obtain ⟨after, same⟩ := session_serve inStep moved
  obtain ⟨next, served, rfl⟩ := Config.serve_cases moved
  have kept := (serve_advances bus inStep.awaits served).kept
  rw [same] at counted onItsWay
  refine ⟨after, counted, ?_, onItsWay⟩
  intro k ws inside
  exact produced_mono (returned k ws inside) List.prefix_rfl kept

private theorem own_reply {s : Session δ} {header data piece rest : List Byte} {length : ℕ}
    (onItsWay : OnItsWay s header length data) (stream : s.stream = piece ++ rest)
    (full : length * 4 + 8 ≤ (data ++ piece).length) (echo : (data ++ piece).take 8 = header) :
    rest = [] ∧ (data ++ piece).length = length * 4 + 8 ∧
      Produced s.client.requests s.server.log (s.client.requests.length - 1)
        (decode ((data ++ piece).drop 8)) := by
  obtain ⟨eight, -, stale, own, payload, all, ⟨tail, begins⟩, fresh, answer⟩ := onItsWay
  rw [stream, ← List.append_assoc] at all
  have first : (data ++ piece).take 8 = (stale ++ header).take 8 := by
    have longer : data ++ piece ++ (rest ++ tail) = stale ++ header ++ payload := by
      rw [← List.append_assoc, all, List.append_assoc, begins, List.append_assoc]
    calc (data ++ piece).take 8 = (data ++ piece ++ (rest ++ tail)).take 8 :=
          (List.take_append_of_le_length (by omega)).symm
      _ = (stale ++ header ++ payload).take 8 := by rw [longer]
      _ = (stale ++ header).take 8 :=
          List.take_append_of_le_length (by rw [List.length_append]; omega)
  have nothing_stale : stale = [] := by
    rcases fresh with none_left | differs
    · exact none_left
    · exact absurd (first.symm.trans echo) differs
  rw [nothing_stale, List.nil_append] at all
  have total : (data ++ piece).length + rest.length = own.length := by
    rw [← List.length_append, all]
  obtain ⟨size, produced⟩ := answer (by omega)
  have nothing_left : rest = [] := List.length_eq_zero_iff.mp (by omega)
  rw [nothing_left, List.append_nil] at all
  exact ⟨nothing_left, by rw [all, size], all ▸ produced⟩

private theorem attributed_deliver {c : Config δ} {piece rest : List Byte} {late : Bool}
    (attributed : Attributed bus c) (split : c.toClient = piece ++ rest)
    (after : InStep { c with client := c.client.deliver piece late, toClient := rest }) :
    Attributed bus { c with client := c.client.deliver piece late, toClient := rest } := by
  obtain ⟨-, counted, returned, onItsWay⟩ := attributed
  have requests := Client.deliver_requests piece late c.client
  have server : (session bus
      { c with client := c.client.deliver piece late, toClient := rest }).server =
      (session bus c).server := by
    simp only [session, pending, requests]
  have stream : (session bus c).stream = piece ++ outstanding bus
      { c with client := c.client.deliver piece late, toClient := rest } := by
    simp only [session, outstanding, pending, requests, split, List.append_assoc]
  refine ⟨after, by rw [server, requests]; exact counted, ?_, ?_⟩
  · intro k ws inside
    rw [requests]
    rcases Client.deliver_cases piece late c.client with silent | ⟨header, length, data, again,
      phase, ⟨-, still⟩ | ⟨full, echo, ends⟩⟩
    · exact returned k ws (silent.2 k ws inside)
    · rw [still] at inside
      exact returned k ws inside
    · obtain ⟨settled, size, produced⟩ :=
        own_reply (onItsWay header length data again phase) stream full echo
      rw [ends] at inside
      rcases List.mem_append.mp inside with before | last
      · exact returned k ws before
      · have actual := session_server_of_settled settled
        rw [server] at actual
        have words : ((data ++ piece).drop 8).length % 4 = 0 := by
          rw [List.length_drop, size]
          omega
        rw [frombuffer, if_pos words] at last
        obtain ⟨rfl, same⟩ := Prod.mk.injEq .. ▸ List.mem_singleton.mp last
        obtain rfl := Outcome.words.inj same
        rw [actual] at produced
        exact produced
  · intro header length data again reply
    rcases Client.deliver_cases piece late c.client with silent | ⟨header', length', data', again',
      phase, ⟨short, still⟩ | ⟨-, -, ends⟩⟩
    · exact absurd reply (silent.1 header length data again)
    · obtain ⟨eight, -, stale, own, payload, all, begins, fresh, answer⟩ :=
        onItsWay header' length' data' again' phase
      rw [still] at reply
      obtain ⟨rfl, rfl, rfl, rfl⟩ := Phase.response.inj reply
      rw [stream, ← List.append_assoc] at all
      refine ⟨eight, short, stale, own, payload, all, begins, fresh, fun full => ?_⟩
      have asked : (session bus
          { c with client := c.client.deliver piece late, toClient := rest }).client.requests =
          (session bus c).client.requests := requests
      rw [server, asked]
      exact answer full
    · rw [ends] at reply
      cases reply

private theorem attributed_timeout {c d : Config δ} (attributed : Attributed bus c)
    (moved : c.timeout = some d) : Attributed bus d := by
  obtain ⟨after, -⟩ := session_step bus (l := .timeout) attributed.inStep moved
  obtain ⟨-, counted, returned, -⟩ := attributed
  obtain ⟨waiting, rfl⟩ := Config.timeout_cases moved
  obtain ⟨quiet, fewer⟩ := Client.expire_silent waiting
  have requests := Client.expire_requests c.client
  refine ⟨after, ?_, ?_, ?_⟩
  · simp only [session, pending, requests]
    exact counted
  · intro k ws inside
    rw [requests]
    exact returned k ws (fewer k ws inside)
  · intro header length data again reply
    exact absurd reply (quiet header length data again)

private theorem attributed_step {l : Label} {c d : Config δ} (attributed : Attributed bus c)
    (fresh : Fresh bus l c) (moved : c.step bus l = some d) : Attributed bus d := by
  obtain ⟨after, same⟩ := session_step bus attributed.inStep moved
  cases l with
  | start token => cases same
  | call op => exact attributed_call attributed fresh moved
  | serve => exact attributed_serve attributed moved
  | receive bytes =>
    obtain ⟨most, -, -, rfl⟩ := Config.receive_cases moved
    exact attributed_deliver attributed (List.take_append_drop bytes c.toClient).symm after
  | endOfStream late =>
    obtain ⟨⟨-, empty, -⟩, rfl⟩ := Config.end_of_stream_cases moved
    exact attributed_deliver attributed (List.nil_append c.toClient).symm after
  | timeout => exact attributed_timeout attributed moved

private theorem attributed_connected (buffer : ℕ → Word) (device : δ) :
    Attributed bus (Config.connected buffer device) := by
  refine ⟨in_step_connected buffer device, fun _ => rfl, ?_, ?_⟩
  · intro k ws inside
    cases inside
  · intro header length data again reply
    cases reply

/-- Whatever is delayed and whatever times out: if every read is sent fresh, every read that
returns words returns those the server produced for that very request. -/
theorem returned_words_are_own (bus : Bus δ) (buffer : ℕ → Word) (device : δ)
    (labels : List Label) (c : Config δ)
    (path : run (Config.step bus) labels (Config.connected buffer device) = some c)
    (fresh : Along (Config.step bus) (Fresh bus) labels (Config.connected buffer device))
    (k : ℕ) (ws : List Word) (returned : (k, Outcome.words ws) ∈ c.client.returned) :
    Produced c.client.requests c.server.log k ws := by
  have attributed := run_invariant (Attributed bus)
    (fun _ _ _ before fresh moved => attributed_step before fresh moved)
    (attributed_connected buffer device) fresh path
  exact attributed.returned k ws returned

def counter : Bus Word := { latch with load := fun _ d => (d, d + 1), store := fun _ _ d => d }

/-- A read that times out before its reply arrives, and then a read of another register, which
meets the late reply and clears it, and succeeds when it is tried again. -/
def staleReply : List Label :=
  [.call (.reads 0x40000000 1), .timeout, .serve,
    .call (.reads 0x40000004 1), .serve, .receive 12, .receive 12, .timeout,
    .call (.reads 0x40000004 1), .serve, .receive 12]

def repeatedRead : List Label :=
  [.call (.reads 0x40000000 1), .timeout, .serve,
    .call (.reads 0x40000000 1), .serve, .receive 12]

theorem returned_words_are_own_stale_reply :
    ∃ c, run (Config.step counter) staleReply (Config.connected (fun _ => 0) 0) = some c ∧
      Produced c.client.requests c.server.log 2 [2] :=
  ⟨_, rfl, returned_words_are_own counter (fun _ => 0) 0 staleReply _ rfl (by decide) 2 [2]
    (by decide)⟩

/-- The second read returns the word of the first. -/
theorem repeated_read_counterexample :
    ∃ c, run (Config.step counter) repeatedRead (Config.connected (fun _ => 0) 0) = some c ∧
      c.client.returned = [(0, .raised .timeout), (1, .words [0])] ∧
      c.server.log = [.readValues 0x40000000 1 [0], .readValues 0x40000000 1 [1]] ∧
      ¬ Produced c.client.requests c.server.log 1 [0] := by
  refine ⟨_, rfl, by decide, by decide, ?_⟩
  rintro ⟨q, asked, -, recorded⟩
  obtain rfl : Request.read 0x40000000 1 (by decide) = q := Option.some.inj asked
  exact absurd recorded (by decide)

end Pypga.Remote.Attribution
