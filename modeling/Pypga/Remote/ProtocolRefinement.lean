/- GID: Pypga/Remote/ProtocolRefinement
   generality: G
   digest: With full receives the client and the server together are direct access to the board. -/

import Pypga.Remote.ExecutedRequests
import Pypga.Remote.OrderlySession

set_option autoImplicit false
set_option relaxedAutoImplicit false

namespace Pypga.Remote.ProtocolRefinement

open Pypga.Foundation.LabelledRun
open Pypga.Foundation.LittleEndian (Word)
open Pypga.Remote.MonitorServer (Bus Server serve)
open Pypga.Remote.SocketClient (Op Request Client)
open Pypga.Remote.RequestExecution
open Pypga.Remote.DirectAccess
open Pypga.Remote.ExecutedRequests
open Pypga.Remote.Connection
open Pypga.Remote.OrderedSession
open Pypga.Remote.OrderlySession

variable {δ : Type*}

def calls (labels : List Label) : List Op :=
  labels.filterMap fun l => match l with
    | .call op => some op
    | _ => none

theorem calls_append (labels more : List Label) :
    calls (labels ++ more) = calls labels ++ calls more := List.filterMap_append

def FullReceive (l : Label) (c : Config δ) : Prop :=
  match l with
  | .receive bytes => c.client.wanted = some bytes
  | .timeout => False
  | _ => True

instance (l : Label) (c : Config δ) : Decidable (FullReceive l c) :=
  match l with
  | .receive bytes => inferInstanceAs (Decidable (c.client.wanted = some bytes))
  | .timeout => .isFalse id
  | .start _ => .isTrue trivial
  | .call _ => .isTrue trivial
  | .serve => .isTrue trivial
  | .endOfStream _ => .isTrue trivial

def Inside (l : Label) (_ : Config δ) : Prop :=
  match l with
  | .serve => True
  | .receive _ => True
  | _ => False

section Progress

variable (bus : Bus δ)

def work (c : Config δ) : ℕ :=
  (outstanding bus c).length + 2 * (pending c).length +
    if c.server.phase = .header then 1 else 0

variable {bus}

private theorem alive_of_orderly {c : Config δ} (orderly : Orderly (session bus c)) :
    c.server.phase ≠ .failed := by
  intro failed
  have same := execute_all_failed bus failed (pending c)
  have alive := orderly.alive
  simp [session, same, failed] at alive

private theorem work_serve {c d : Config δ} (inStep : InStep c)
    (after : Orderly (session bus d)) (moved : c.serve bus = some d) :
    work bus d < work bus c := by
  have alive := alive_of_orderly after
  have stream : outstanding bus c = outstanding bus d :=
    congrArg Session.stream (session_serve inStep moved).2
  obtain ⟨next, served, rfl⟩ := Config.serve_cases moved
  have advanced := serve_advances bus inStep.awaits served
  have more := advanced.grown.2
  rw [pending, List.length_drop] at more
  rw [work, work, ← stream]
  simp only [pending, List.length_drop] at alive ⊢
  rcases advanced.moved with executed | ended | ⟨header, body⟩
  · split <;> split <;> omega
  · exact absurd ended alive
  · rw [if_pos header, if_neg body]
    have grown := advanced.grown.1
    omega

private theorem work_receive {bytes : ℕ} {c d : Config δ} (moved : c.receive bytes = some d) :
    work bus d < work bus c := by
  obtain ⟨most, -, ⟨positive, -, there⟩, rfl⟩ := Config.receive_cases moved
  have same := Client.deliver_requests (c.toClient.take bytes) false c.client
  simp only [work, outstanding, pending, same, List.length_append, List.length_drop]
  omega

variable (bus) in
theorem perform_reply (q : Request) (s : Server δ) :
    ∃ rest, (perform bus q s).2 = q.header ++ rest := by
  cases q with
  | read addr length fits => exact ⟨_, rfl⟩
  | ram offset length fits =>
    simp only [perform, Server.copy]
    split <;> exact ⟨_, rfl⟩
  | write addr values fits => exact ⟨[], (List.append_nil _).symm⟩

theorem idle_returned {c : Config δ} (orderly : Orderly (session bus c))
    (idle : c.client.phase = .idle) :
    c.client.returned = answers (session bus c).server.log := by
  cases orderly.stage with
  | idle phase stream returned => exact returned
  | response header payload data length again log e phase => simp [session, idle] at phase
  | acknowledgement header log e phase => simp [session, idle] at phase

theorem idle_settled {c : Config δ} (inStep : InStep c) (orderly : Orderly (session bus c))
    (idle : c.client.phase = .idle) :
    c.toServer = [] ∧ c.toClient = [] ∧ c.server.phase = .header ∧
      session bus c = ⟨c.client, c.server, []⟩ := by
  have alive := alive_of_orderly orderly
  have empty : outstanding bus c = [] := by
    cases orderly.stage with
    | idle phase stream returned => exact stream
    | response header payload data length again log e phase => simp [session, idle] at phase
    | acknowledgement header log e phase => simp [session, idle] at phase
  obtain ⟨received, replies⟩ := List.append_eq_nil_iff.mp empty
  have executed : pending c = [] := by
    cases todo : pending c with
    | nil => rfl
    | cons q qs =>
      obtain ⟨rest, reply⟩ := perform_reply bus q c.server
      rw [todo, executeAll, execute_alive bus alive, reply] at replies
      have long := congrArg List.length replies
      simp at long
  have awaits := inStep.awaits
  rw [executed] at awaits
  obtain ⟨boundary, read⟩ := awaits_nil awaits alive
  refine ⟨read, received, boundary, ?_⟩
  simp only [session, empty, executed, executeAll]

def AllPrompt (c : Config δ) : Prop := ∀ q ∈ c.client.requests, prompt q

theorem inside_enabled {c : Config δ} (inStep : InStep c) (orderly : Orderly (session bus c))
    (all_prompt : AllPrompt c) (busy : c.client.phase ≠ .idle) :
    ∃ l d, Inside l c ∧ FullReceive l c ∧ c.step bus l = some d := by
  have alive := alive_of_orderly orderly
  by_cases todo : pending c = []
  · have stream : (session bus c).stream = c.toClient := by
      simp only [session, outstanding, todo, executeAll, List.append_nil]
    cases orderly.stage with
    | idle phase => exact absurd phase busy
    | response header payload data length again log e phase eight size rest short =>
      have wanted := Client.wanted_response (c := c.client) phase
      have total : data.length + c.toClient.length = header.length + payload.length := by
        rw [← stream, ← List.length_append, rest, List.length_append]
      have enough : length * 4 + 8 - data.length ≤ c.toClient.length := by omega
      have some_bytes : 0 < length * 4 + 8 - data.length := by omega
      exact ⟨.receive _, _, trivial, wanted,
        Config.receive_enabled wanted some_bytes le_rfl enough⟩
    | acknowledgement header log e phase eight rest =>
      have wanted := Client.wanted_acknowledgement (c := c.client) phase
      have enough : 8 ≤ c.toClient.length := by
        rw [← stream, rest]
        exact eight.ge
      exact ⟨.receive 8, _, trivial, wanted,
        Config.receive_enabled wanted (by decide) le_rfl enough⟩
  · obtain ⟨next, served⟩ := serve_enabled bus inStep.awaits alive todo
      fun q there => all_prompt q (List.mem_of_mem_drop there)
    have moved : c.step bus .serve =
        some ⟨c.client, next.server, next.unread, c.toClient ++ next.sent⟩ := by
      simp only [Config.step, Config.serve, served]
    exact ⟨.serve, _, trivial, trivial, moved⟩

end Progress

section Runs

variable {bus : Bus δ}

theorem answered_of_admissible {op : Op} (admissible : Admissible op) : Answered op := by
  cases op with
  | reads addr length => exact ⟨_, rfl, trivial, trivial⟩
  | readFromRam offset length =>
    obtain ⟨short, inside⟩ := admissible
    refine ⟨.ram offset length short, by simp only [Op.request, short, dif_pos], ?_, trivial⟩
    rw [mappedArea, masked_offset]
    exact inside
  | writes addr values =>
    refine ⟨_, rfl, trivial, ?_⟩
    show values.take (65535 - 2) ≠ []
    rw [List.take_of_length_le admissible.2]
    exact admissible.1

theorem carried_of_answered {op : Op} (answered : Answered op) : Carried op := by
  obtain ⟨q, request, mapped, -⟩ := answered
  exact ⟨q, request, mapped⟩

private theorem requests_step {l : Label} {c d : Config δ} (moved : c.step bus l = some d) :
    d.client.requests = c.client.requests ++ requests (calls [l]) := by
  have same : requests (calls ([] : List Label)) = [] := rfl
  cases l with
  | start token =>
    obtain ⟨-, rfl⟩ := Config.start_cases moved
    exact (List.append_nil _).symm
  | call op =>
    obtain ⟨client, sent, called, rfl⟩ := Config.call_cases moved
    have one : calls [.call op] = [op] := rfl
    rw [one]
    obtain ⟨-, ⟨q, request, -, rfl⟩ | ⟨e, request, -, rfl⟩⟩ := Client.call_cases called
    · rw [requests_cons_ok request]
      rfl
    · rw [requests_cons_error request]
      exact (List.append_nil _).symm
  | serve =>
    obtain ⟨next, -, rfl⟩ := Config.serve_cases moved
    exact (List.append_nil _).symm
  | receive bytes =>
    obtain ⟨most, -, -, rfl⟩ := Config.receive_cases moved
    exact (Client.deliver_requests _ false c.client).trans (List.append_nil _).symm
  | endOfStream late =>
    obtain ⟨-, rfl⟩ := Config.end_of_stream_cases moved
    exact (Client.deliver_requests [] late c.client).trans (List.append_nil _).symm
  | timeout =>
    obtain ⟨-, rfl⟩ := Config.timeout_cases moved
    exact (Client.expire_requests c.client).trans (List.append_nil _).symm

theorem requests_run {labels : List Label} {c d : Config δ}
    (path : run (Config.step bus) labels c = some d) :
    d.client.requests = c.client.requests ++ requests (calls labels) := by
  have along : Along (Config.step bus) (fun _ _ => True) labels c :=
    along_of_labels fun _ _ _ => trivial
  apply run_history (fun past s => s.client.requests = c.client.requests ++ requests (calls past)) _
    (List.append_nil _).symm along path
  intro past l s t before _ moved
  rw [requests_step moved, before, calls_append, requests_append, List.append_assoc]

theorem prompt_of_answered {ops : List Op} (answered : ∀ op ∈ ops, Answered op) :
    ∀ q ∈ requests ops, prompt q := by
  intro q there
  obtain ⟨op, member, is⟩ := List.mem_filterMap.mp there
  obtain ⟨p, request, -, words⟩ := answered op member
  rw [request] at is
  exact Option.some.inj is ▸ words

theorem all_prompt_run {labels : List Label} {c d : Config δ} (before : AllPrompt c)
    (path : run (Config.step bus) labels c = some d)
    (called : ∀ q ∈ requests (calls labels), prompt q) : AllPrompt d := by
  intro q there
  rw [requests_run path] at there
  exact (List.mem_append.mp there).elim (before q) (called q)

theorem orderly_connected (buffer : ℕ → Word) (device : δ) :
    Orderly (session bus (Config.connected buffer device)) :=
  ⟨.idle rfl rfl rfl, rfl, rfl⟩

theorem connection_step {l : Label} {c d : Config δ}
    (before : InStep c ∧ Orderly (session bus c)) (undisturbed : Undisturbed l c.client)
    (moved : c.step bus l = some d) : InStep d ∧ Orderly (session bus d) := by
  obtain ⟨inStep, same⟩ := session_step bus before.1 moved
  exact ⟨inStep, orderly_step before.2 undisturbed same⟩

theorem connection_run {labels : List Label} {c d : Config δ}
    (before : InStep c ∧ Orderly (session bus c))
    (along : Along (Config.step bus) (fun l c => Undisturbed l c.client) labels c)
    (path : run (Config.step bus) labels c = some d) : InStep d ∧ Orderly (session bus d) :=
  run_invariant (fun c => InStep c ∧ Orderly (session bus c))
    (fun _ _ _ kept undisturbed moved => connection_step kept undisturbed moved) before along path

def InTurn (c : Config δ) : Prop :=
  Waiting c ∧ ∀ sent q, c.client.requests = sent ++ [q] → ∀ p ∈ sent, prompt p

private theorem all_prompt_of_executed {c : Config δ} (inTurn : InTurn c)
    (executed : c.client.requests.length ≤ c.server.log.length) : AllPrompt c := by
  intro q there
  rcases List.eq_nil_or_concat' c.client.requests with none_sent | ⟨sent, p, is⟩
  · rw [none_sent] at there
    exact absurd there List.not_mem_nil
  · rw [is, List.length_append, List.length_singleton] at executed
    have last : prompt p := (inTurn.1 sent p is).resolve_right (by omega)
    rw [is] at there
    rcases List.mem_append.mp there with earlier | now
    · exact inTurn.2 sent p is q earlier
    · exact List.mem_singleton.mp now ▸ last

theorem all_prompt_of_idle {c : Config δ} (before : InStep c ∧ Orderly (session bus c))
    (inTurn : InTurn c) (idle : c.client.phase = .idle) : AllPrompt c := by
  obtain ⟨-, -, -, same⟩ := idle_settled before.1 before.2 idle
  have counted := before.2.counted
  rw [same] at counted
  exact all_prompt_of_executed inTurn counted.ge

theorem in_turn_step {l : Label} {c d : Config δ} (before : InStep c ∧ Orderly (session bus c))
    (inTurn : InTurn c) (moved : c.step bus l = some d) : InTurn d := by
  refine ⟨waiting_step before.1 inTurn.1 moved, fun sent q is => ?_⟩
  cases l with
  | call op =>
    obtain ⟨client, piece, called, rfl⟩ := Config.call_cases moved
    obtain ⟨idle, ⟨p, -, -, rfl⟩ | ⟨e, -, -, rfl⟩⟩ := Client.call_cases called
    · obtain ⟨rfl, -⟩ := List.append_inj' is rfl
      exact all_prompt_of_idle before inTurn idle
    · exact inTurn.2 sent q is
  | _ =>
    rw [requests_step moved, calls, List.filterMap_cons, List.filterMap_nil, requests,
      List.filterMap_nil, List.append_nil] at is
    exact inTurn.2 sent q is

theorem in_turn_unsent {c : Config δ} (none_sent : c.client.requests = []) : InTurn c := by
  refine ⟨waiting_unsent none_sent, fun sent q is => ?_⟩
  rw [none_sent] at is
  exact absurd (congrArg List.length is) (by simp)

theorem server_step {l : Label} {c d : Config δ} (inStep : InStep c)
    (moved : c.step bus l = some d) :
    (session bus d).server = (executeAll bus (requests (calls [l])) (session bus c).server).1 := by
  obtain ⟨-, same⟩ := session_step bus inStep moved
  cases l with
  | start token => cases same
  | call op =>
    have called : calls [.call op] = [op] := rfl
    rw [called]
    cases request : op.request with
    | ok q =>
      rw [requests_cons_ok request, executeAll, (Session.call_executes request same).1]
      rfl
    | error e =>
      rw [requests_cons_error request, Session.call_refused request same]
      rfl
  | serve => exact congrArg Session.server (Option.some.inj same).symm
  | receive bytes => exact Session.receive_server same
  | endOfStream late =>
    simp only [Session.step, Session.endOfStream, Option.ite_none_right_eq_some,
      Option.some.injEq] at same
    rw [← same.2]
    rfl
  | timeout =>
    simp only [Session.step, Session.timeout, Option.ite_none_right_eq_some,
      Option.some.injEq] at same
    rw [← same.2]
    rfl

private theorem run_executes {labels : List Label} {c d : Config δ} (inStep : InStep c)
    (path : run (Config.step bus) labels c = some d) :
    InStep d ∧ (session bus d).server =
      (executeAll bus (requests (calls labels)) (session bus c).server).1 := by
  have along : Along (Config.step bus) (fun _ _ => True) labels c :=
    along_of_labels fun _ _ _ => trivial
  apply run_history (fun past s => InStep s ∧ (session bus s).server =
    (executeAll bus (requests (calls past)) (session bus c).server).1) _ ⟨inStep, rfl⟩ along path
  rintro past l s t ⟨before, executed⟩ - moved
  refine ⟨(session_step bus before moved).1, ?_⟩
  rw [calls_append, requests_append, execute_all_append, server_step before moved, executed]

theorem undisturbed_receive {bytes : ℕ} {c : Config δ}
    (full : FullReceive (.receive bytes) c) : Undisturbed (.receive bytes) c.client := by
  intro acknowledging
  have wanted : c.client.wanted = some bytes := full
  cases phase : c.client.phase with
  | acknowledgement header =>
    rw [Client.wanted_acknowledgement phase] at wanted
    exact (Option.some.inj wanted).symm
  | _ => simp [phase, SocketClient.Phase.acknowledging] at acknowledging

private theorem undisturbed_of_full {labels : List Label} {c : Config δ}
    (admissible : ∀ op ∈ calls labels, Admissible op)
    (full : Along (Config.step bus) FullReceive labels c) :
    Along (Config.step bus) (fun l c => Undisturbed l c.client) labels c := by
  apply along_mono _ full
  intro l inside s ok
  cases l with
  | call op =>
    exact carried_of_answered (answered_of_admissible
      (admissible op (List.mem_filterMap.mpr ⟨.call op, inside, rfl⟩)))
  | receive bytes => exact undisturbed_receive ok
  | timeout => exact ok
  | _ => trivial

theorem undisturbed_inside {l : Label} {c : Config δ} (inside : Inside l c)
    (full : FullReceive l c) : Undisturbed l c.client := by
  cases l with
  | serve => trivial
  | receive bytes => exact undisturbed_receive full
  | _ => exact inside.elim

theorem all_prompt_inside {l : Label} {c d : Config δ} (before : AllPrompt c) (inside : Inside l c)
    (moved : c.step bus l = some d) : AllPrompt d := by
  intro q there
  rw [requests_step moved] at there
  cases l with
  | serve => exact before q (by simpa [calls, requests] using there)
  | receive bytes => exact before q (by simpa [calls, requests] using there)
  | _ => exact inside.elim

theorem inside_step {l : Label} {c d : Config δ} (before : InStep c ∧ Orderly (session bus c))
    (inside : Inside l c) (undisturbed : Undisturbed l c.client) (moved : c.step bus l = some d) :
    (InStep d ∧ Orderly (session bus d)) ∧ work bus d < work bus c := by
  have after := connection_step before undisturbed moved
  cases l with
  | serve => exact ⟨after, work_serve before.1 after.2 moved⟩
  | receive bytes => exact ⟨after, work_receive moved⟩
  | _ => exact inside.elim

theorem inside_ends {c : Config δ} (before : InStep c ∧ Orderly (session bus c))
    (all_prompt : AllPrompt c) :
    ∃ more d, Along (Config.step bus) (fun l c => Inside l c ∧ FullReceive l c) more c ∧
      run (Config.step bus) more c = some d ∧ d.client.phase = .idle := by
  apply run_reaches (fun c => c.client.phase = .idle)
    (fun c => (InStep c ∧ Orderly (session bus c)) ∧ AllPrompt c)
    (work bus) (fun l c => Inside l c ∧ FullReceive l c) _ _ ⟨before, all_prompt⟩
  · intro s here busy
    obtain ⟨l, t, inside, fully, moved⟩ := inside_enabled here.1.1 here.1.2 here.2 busy
    exact ⟨l, t, ⟨inside, fully⟩, moved⟩
  · intro l s t here chosen moved
    obtain ⟨after, less⟩ :=
      inside_step here.1 chosen.1 (undisturbed_inside chosen.1 chosen.2) moved
    exact ⟨⟨after, all_prompt_inside here.2 chosen.1 moved⟩, less⟩

/-- Between two calls of a run from the start the server has executed all of them, nothing is left in
either stream, and what was recorded has been returned. -/
theorem run_settled {buffer : ℕ → Word} {device : δ} {labels : List Label} {c : Config δ}
    (path : run (Config.step bus) labels (Config.connected buffer device) = some c)
    (along : Along (Config.step bus) (fun l c => Undisturbed l c.client) labels
      (Config.connected buffer device)) (idle : c.client.phase = .idle) :
    c.server = (executeAll bus (requests (calls labels)) (Config.connected buffer device).server).1 ∧
      c.toServer = [] ∧ c.toClient = [] ∧ c.server.phase = .header ∧
      c.client.returned = answers c.server.log := by
  have start : InStep (Config.connected buffer device) ∧
      Orderly (session bus (Config.connected buffer device)) :=
    ⟨in_step_connected buffer device, orderly_connected buffer device⟩
  have reached := connection_run start along path
  obtain ⟨read, received, boundary, same⟩ := idle_settled reached.1 reached.2 idle
  have executed := (run_executes start.1 path).2
  have returned := idle_returned reached.2 idle
  rw [same] at executed returned
  exact ⟨executed, read, received, boundary, returned⟩

end Runs

/-- Over streams whose receives are full, admissible calls are direct access: whenever the client
is between two calls, the server has executed exactly the calls so far with their own arguments,
their words have been returned, and nothing is left in either stream. Every call ends: on some
schedule, and on every schedule within a bound. -/
theorem protocol_refines_direct_access (bus : Bus δ) (buffer : ℕ → Word) (device : δ)
    (labels : List Label) (c : Config δ)
    (path : run (Config.step bus) labels (Config.connected buffer device) = some c)
    (admissible : ∀ op ∈ calls labels, Admissible op)
    (full : Along (Config.step bus) FullReceive labels (Config.connected buffer device)) :
    (c.client.phase = .idle →
      c.server.log = (accesses bus (calls labels) device).1 ∧
      c.server.device = (accesses bus (calls labels) device).2 ∧
      c.client.returned = answers (accesses bus (calls labels) device).1 ∧
      c.toServer = [] ∧ c.toClient = [] ∧ c.server.phase = .header) ∧
    (∃ more d, Along (Config.step bus) (fun l c => Inside l c ∧ FullReceive l c) more c ∧
      run (Config.step bus) more c = some d ∧ d.client.phase = .idle) ∧
    ∃ bound, ∀ more d, Along (Config.step bus) (fun l c => Inside l c ∧ FullReceive l c) more c →
      run (Config.step bus) more c = some d → more.length ≤ bound := by
  have start : InStep (Config.connected buffer device) ∧
      Orderly (session bus (Config.connected buffer device)) :=
    ⟨in_step_connected buffer device, orderly_connected buffer device⟩
  have along := undisturbed_of_full admissible full
  have reached := connection_run start along path
  refine ⟨?_, ?_, work bus c, ?_⟩
  · intro idle
    obtain ⟨executed, read, received, boundary, returned⟩ := run_settled path along idle
    obtain ⟨log, last⟩ := execute_all_accesses bus admissible
      (s := (Config.connected buffer device).server) rfl
    rw [← executed] at log last
    have recorded : c.server.log = (accesses bus (calls labels) device).1 := log
    exact ⟨recorded, last, recorded ▸ returned, read, received, boundary⟩
  · have all_prompt : AllPrompt c := all_prompt_run (fun _ there => absurd there List.not_mem_nil) path
      (prompt_of_answered fun op member => answered_of_admissible (admissible op member))
    exact inside_ends reached all_prompt
  · intro more d inside steps
    have bound := run_length_le (fun c => InStep c ∧ Orderly (session bus c)) (work bus)
      (fun l c => Inside l c ∧ FullReceive l c)
      (fun _ _ _ before chosen moved =>
        inside_step before chosen.1 (undisturbed_inside chosen.1 chosen.2) moved) reached inside steps
    omega

def writeThenRead : List Label :=
  [.call (.writes 0x40000000 [7]), .serve, .serve, .receive 8,
    .call (.reads 0x40000000 1), .serve, .receive 12]

theorem protocol_refines_direct_access_write_then_read :
    ∃ c, run (Config.step MonitorServer.latch) writeThenRead
        (Config.connected (fun _ => 0) 0) = some c ∧
      c.client.returned = answers (accesses MonitorServer.latch (calls writeThenRead) 0).1 := by
  have admissible : ∀ op ∈ calls writeThenRead, Admissible op := by
    simp [calls, writeThenRead, Admissible]
  refine ⟨_, rfl, ?_⟩
  exact ((protocol_refines_direct_access MonitorServer.latch (fun _ => 0) 0 writeThenRead _ rfl
    admissible (by decide)).1 rfl).2.2.1

end Pypga.Remote.ProtocolRefinement
