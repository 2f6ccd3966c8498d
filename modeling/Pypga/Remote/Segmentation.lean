/- GID: Pypga/Remote/Segmentation
   generality: G
   digest: How the stream is cut into pieces does not matter to the client, but for the acknowledgement of a write. -/

import Mathlib.Data.List.Induction
import Pypga.Remote.ProtocolRefinement

set_option autoImplicit false
set_option relaxedAutoImplicit false

namespace Pypga.Remote.Segmentation

open Pypga.Foundation.LabelledRun
open Pypga.Foundation.LittleEndian (Byte Word low)
open Pypga.Remote.MonitorServer (Bus Server serve)
open Pypga.Remote.MonitorServer.Server (confirmation tokenBuffer)
open Pypga.Remote.SocketClient (Client Outcome Error)
open Pypga.Remote.RequestExecution
open Pypga.Remote.DirectAccess
open Pypga.Remote.Connection
open Pypga.Remote.OrderedSession
open Pypga.Remote.OrderlySession
open Pypga.Remote.ProtocolRefinement

variable {δ : Type*}

/-- The steps of a client with the right token, whose requests the server can execute, and
whose receives always return something. -/
def Delivered (token : List Byte) (l : Label) (_ : Config δ) : Prop :=
  match l with
  | .start given => given = token
  | .call op => Carried op
  | .timeout => False
  | _ => True

/-- The acknowledgement of a write arrives in one piece. -/
def WholeAcknowledgement (l : Label) (c : Config δ) : Prop :=
  match l with
  | .receive bytes => c.client.phase.acknowledging = true → bytes = 8
  | _ => True

instance (l : Label) (c : Config δ) : Decidable (WholeAcknowledgement l c) :=
  match l with
  | .receive bytes =>
    inferInstanceAs (Decidable (c.client.phase.acknowledging = true → bytes = 8))
  | .start _ => .isTrue trivial
  | .call _ => .isTrue trivial
  | .serve => .isTrue trivial
  | .endOfStream _ => .isTrue trivial
  | .timeout => .isTrue trivial

inductive Greeting (token : List Byte) (buffer : ℕ → Word) (device : δ) (c : Config δ) : Prop
  | fresh (same : c = Config.accepted token buffer device)
  | asked (same : c = ⟨⟨.handshake [] false, [], []⟩, ⟨.token token, buffer, device, []⟩,
      token, []⟩)
  | answered (data stream : List Byte) (again : Bool) (rest : data ++ stream = confirmation)
      (short : data.length < 32)
      (same : c = ⟨⟨.handshake data again, [], []⟩,
        ⟨.header, tokenBuffer token buffer, device, []⟩, [], stream⟩)

def greeted (token : List Byte) (buffer : ℕ → Word) (device : δ) : Config δ :=
  Config.connected (tokenBuffer token buffer) device

def remaining (bus : Bus δ) (c : Config δ) : ℕ :=
  match c.client.phase with
  | .handshake data _ => 34 - data.length + if c.server.phase = .header then 0 else 1
  | _ => work bus c

section Handshake

variable {bus : Bus δ} {token : List Byte} {buffer : ℕ → Word} {device : δ}

private theorem greeting_receive {bytes : ℕ} {c d : Config δ} {data stream : List Byte}
    {again : Bool} (rest : data ++ stream = confirmation)
    (same : c = ⟨⟨.handshake data again, [], []⟩,
      ⟨.header, tokenBuffer token buffer, device, []⟩, [], stream⟩)
    (moved : c.receive bytes = some d) :
    (Greeting token buffer device d ∨ d = greeted token buffer device) ∧
      remaining bus d < remaining bus c := by
  subst same
  simp only [Config.receive, Client.wanted, Option.ite_none_right_eq_some,
    Option.some.injEq] at moved
  obtain ⟨⟨positive, within, there⟩, rfl⟩ := moved
  have split : (data ++ stream.take bytes) ++ stream.drop bytes = confirmation := by
    rw [List.append_assoc, List.take_append_drop, rest]
  have size : (data ++ stream.take bytes).length = data.length + bytes := by
    rw [List.length_append, List.length_take, Nat.min_eq_left there]
  by_cases more : (data ++ stream.take bytes).length < 32
  · rw [Client.deliver_handshake_more rfl more (Client.piece_ne_nil positive there)]
    refine ⟨.inl (.answered _ _ true split more rfl), ?_⟩
    simp only [remaining, if_true, size]
    omega
  · have total : (data ++ stream.take bytes).length + (stream.drop bytes).length = 32 := by
      rw [← List.length_append, split]
      rfl
    have nothing : stream.drop bytes = [] := List.length_eq_zero_iff.mp (by omega)
    rw [nothing, List.append_nil] at split
    have ends : Client.greeted (data ++ stream.take bytes) ⟨.handshake data again, [], []⟩ =
        Client.connected := by
      rw [split]
      rfl
    rw [Client.deliver_handshake_last rfl more, ends, nothing]
    refine ⟨.inr rfl, ?_⟩
    show 1 < 34 - data.length + 0
    omega

private theorem greeting_serve (long : token.length = 32) :
    Config.serve bus ⟨⟨.handshake [] false, [], []⟩, ⟨.token token, buffer, device, []⟩,
        token, []⟩ =
      some ⟨⟨.handshake [] false, [], []⟩, ⟨.header, tokenBuffer token buffer, device, []⟩,
        [], confirmation⟩ := by
  have enough : ¬ token.length < 32 := by omega
  have all : token.take 32 = token := List.take_of_length_le long.le
  have none_left : token.drop 32 = [] := List.drop_of_length_le long.le
  simp only [Config.serve, serve, if_neg enough, all, none_left, Server.authenticate, if_true]
  rfl

theorem greeting_step {l : Label} {c d : Config δ} (long : token.length = 32)
    (greeting : Greeting token buffer device c) (delivered : Delivered token l c)
    (moved : c.step bus l = some d) :
    calls [l] = [] ∧ (Greeting token buffer device d ∨ d = greeted token buffer device) ∧
      (Inside l c → remaining bus d < remaining bus c) := by
  cases greeting with
  | fresh same =>
    subst same
    cases l with
    | start given =>
      obtain rfl : given = token := delivered
      exact ⟨rfl, .inl (.asked (Option.some.inj moved).symm), fun outside => outside.elim⟩
    | timeout => exact delivered.elim
    | _ => cases moved
  | asked same =>
    subst same
    cases l with
    | serve =>
      obtain rfl := Option.some.inj ((greeting_serve long).symm.trans moved)
      refine ⟨rfl, .inl (.answered [] confirmation false rfl (by decide) rfl), fun _ => ?_⟩
      show 34 < 35
      decide
    | receive bytes =>
      simp only [Config.step, Config.receive, Client.wanted, Option.ite_none_right_eq_some] at moved
      exact absurd moved.1.2.2 (Nat.not_le_of_lt moved.1.1)
    | timeout => exact delivered.elim
    | _ => cases moved
  | answered data stream again rest short same =>
    cases l with
    | receive bytes =>
      obtain ⟨next, less⟩ := greeting_receive rest same moved
      exact ⟨rfl, next, fun _ => less⟩
    | timeout => exact delivered.elim
    | endOfStream late =>
      subst same
      simp [Config.step, Config.endOfStream] at moved
    | _ =>
      subst same
      cases moved

def Sound (bus : Bus δ) (token : List Byte) (buffer : ℕ → Word) (device : δ) (c : Config δ) :
    Prop :=
  Greeting token buffer device c ∨ InStep c ∧ Orderly (session bus c)

private theorem undisturbed_of_delivered {l : Label} {c : Config δ}
    (delivered : Delivered token l c) (whole : WholeAcknowledgement l c) :
    Undisturbed l c.client := by
  cases l with
  | call op => exact delivered
  | receive bytes => exact whole
  | timeout => exact delivered
  | _ => trivial

private theorem sound_step {l : Label} {c d : Config δ} (long : token.length = 32)
    (sound : Sound bus token buffer device c) (delivered : Delivered token l c)
    (whole : WholeAcknowledgement l c) (moved : c.step bus l = some d) :
    Sound bus token buffer device d := by
  rcases sound with greeting | before
  · rcases (greeting_step long greeting delivered moved).2.1 with still | ended
    · exact .inl still
    · rw [ended]
      exact .inr ⟨in_step_connected _ device, orderly_connected _ device⟩
  · exact .inr (connection_step before (undisturbed_of_delivered delivered whole) moved)

private theorem sound_enabled {c : Config δ} (long : token.length = 32)
    (sound : Sound bus token buffer device c) (all_prompt : AllPrompt c)
    (started : c.client.phase ≠ .unconnected) (busy : c.client.phase ≠ .idle) :
    ∃ l d, Inside l c ∧ FullReceive l c ∧ c.step bus l = some d := by
  rcases sound with greeting | ⟨inStep, orderly⟩
  · cases greeting with
    | fresh same =>
      subst same
      exact absurd rfl started
    | asked same =>
      subst same
      exact ⟨.serve, _, trivial, trivial, greeting_serve long⟩
    | answered data stream again rest short same =>
      subst same
      have total : data.length + stream.length = 32 := by
        rw [← List.length_append, rest]
        rfl
      have there : 32 - data.length ≤ stream.length := by omega
      have positive : 0 < 32 - data.length := by omega
      have moved := Config.receive_enabled (c := ⟨⟨.handshake data again, [], []⟩,
        ⟨.header, tokenBuffer token buffer, device, []⟩, [], stream⟩) rfl positive le_rfl there
      exact ⟨.receive (32 - data.length), _, trivial, rfl, moved⟩
  · exact inside_enabled inStep orderly all_prompt busy

private theorem remaining_orderly {c : Config δ} (orderly : Orderly (session bus c)) :
    remaining bus c = work bus c := by
  unfold remaining
  cases orderly.stage with
  | idle phase =>
    have here : c.client.phase = .idle := phase
    rw [here]
  | response header payload data length again log e phase =>
    have here : c.client.phase = .response header length data again := phase
    rw [here]
  | acknowledgement header log e phase =>
    have here : c.client.phase = .acknowledgement header := phase
    rw [here]

private theorem sound_decreases {l : Label} {c d : Config δ} (long : token.length = 32)
    (sound : Sound bus token buffer device c) (inside : Inside l c)
    (whole : WholeAcknowledgement l c) (moved : c.step bus l = some d) :
    Sound bus token buffer device d ∧ remaining bus d < remaining bus c := by
  have delivered : Delivered token l c := by
    cases l with
    | serve => trivial
    | receive bytes => trivial
    | _ => exact inside.elim
  refine ⟨sound_step long sound delivered whole moved, ?_⟩
  rcases sound with greeting | before
  · exact (greeting_step long greeting delivered moved).2.2 inside
  · obtain ⟨after, less⟩ :=
      inside_step before inside (undisturbed_of_delivered delivered whole) moved
    rw [remaining_orderly before.2, remaining_orderly after.2]
    exact less

def Course (bus : Bus δ) (token : List Byte) (buffer : ℕ → Word) (device : δ)
    (past : List Label) (c : Config δ) : Prop :=
  (Greeting token buffer device c ∧ calls past = []) ∨
    ((InStep c ∧ Orderly (session bus c)) ∧ (session bus c).server =
      (executeAll bus (requests (calls past)) (greeted token buffer device).server).1)

private theorem sound_of_course {past : List Label} {c : Config δ}
    (course : Course bus token buffer device past c) : Sound bus token buffer device c := by
  rcases course with ⟨greeting, -⟩ | ⟨before, -⟩
  · exact .inl greeting
  · exact .inr before

private theorem course_step {past : List Label} {l : Label} {c d : Config δ}
    (long : token.length = 32)
    (course : Course bus token buffer device past c) (delivered : Delivered token l c)
    (whole : WholeAcknowledgement l c) (moved : c.step bus l = some d) :
    Course bus token buffer device (past ++ [l]) d := by
  rcases course with ⟨greeting, none_called⟩ | ⟨before, executed⟩
  · obtain ⟨quiet, next, -⟩ := greeting_step long greeting delivered moved
    have still_none : calls (past ++ [l]) = [] := by
      rw [calls_append, none_called, quiet]
      rfl
    rcases next with still | ended
    · exact .inl ⟨still, still_none⟩
    · right
      rw [ended, still_none]
      exact ⟨⟨in_step_connected _ device, orderly_connected _ device⟩, rfl⟩
  · right
    refine ⟨connection_step before (undisturbed_of_delivered delivered whole) moved, ?_⟩
    rw [calls_append, requests_append, execute_all_append, server_step before.1 moved, executed]

private theorem course_run {labels : List Label} {c : Config δ} (long : token.length = 32)
    (delivered : Along (Config.step bus) (Delivered token) labels
      (Config.accepted token buffer device))
    (whole : Along (Config.step bus) WholeAcknowledgement labels
      (Config.accepted token buffer device))
    (path : run (Config.step bus) labels (Config.accepted token buffer device) = some c) :
    Course bus token buffer device labels c :=
  run_history (Course bus token buffer device)
    (fun _ _ _ _ course both moved => course_step long course both.1 both.2 moved)
    (.inl ⟨.fresh rfl, rfl⟩) (along_and delivered whole) path

private theorem greeting_not_idle {c : Config δ} (greeting : Greeting token buffer device c) :
    c.client.phase ≠ .idle := by
  intro idle
  cases greeting with
  | fresh same => simp [same, Config.accepted] at idle
  | asked same => simp [same] at idle
  | answered data stream again rest short same => simp [same] at idle

private theorem course_idle {past : List Label} {c : Config δ}
    (course : Course bus token buffer device past c) (idle : c.client.phase = .idle) :
    c.client.returned = answers c.server.log ∧ c.toClient = [] ∧ c.toServer = [] ∧
      c.server = (executeAll bus (requests (calls past)) (greeted token buffer device).server).1 := by
  rcases course with ⟨greeting, -⟩ | ⟨before, executed⟩
  · exact absurd idle (greeting_not_idle greeting)
  · obtain ⟨read, received, -, same⟩ := idle_settled before.1 before.2 idle
    have returned := idle_returned before.2 idle
    rw [same] at returned executed
    exact ⟨returned, received, read, executed⟩

end Handshake

/-- A state is what it would be had every receive returned all it asked for: no error was or
will be raised, and between two calls the same was returned and the same is left unread. -/
structure AsWhole (bus : Bus δ) (token : List Byte) (start : Config δ) (labels : List Label)
    (c : Config δ) : Prop where
  unharmed : ∀ left e, c.client.phase ≠ .clearing left e ∧ c.client.phase ≠ .refused e
  raised : ∀ k e, (k, Outcome.raised e) ∉ c.client.returned
  same : c.client.phase = .idle → ∀ full d, calls full = calls labels →
    Along (Config.step bus) (Delivered token) full start →
    Along (Config.step bus) FullReceive full start →
    run (Config.step bus) full start = some d → d.client.phase = .idle →
    c.client.returned = d.client.returned ∧ c.toClient = d.toClient ∧
      c.toServer = d.toServer ∧ c.server = d.server

variable {bus : Bus δ} {token : List Byte} {buffer : ℕ → Word} {device : δ}

private theorem whole_of_full {l : Label} {c : Config δ} (full : FullReceive l c) :
    WholeAcknowledgement l c := by
  cases l with
  | receive bytes => exact undisturbed_receive full
  | _ => trivial

private theorem answers_not_raised (log : List MonitorServer.Execution) (k : ℕ) (e : Error) :
    (k, Outcome.raised e) ∉ answers log := by
  intro inside
  obtain ⟨i, below, same⟩ := List.mem_mapIdx.mp inside
  have wrong := congrArg Prod.snd same
  cases executed : log[i] <;> simp [executed, outcome] at wrong

private theorem sound_unharmed {c : Config δ} (sound : Sound bus token buffer device c) :
    (∀ left e, c.client.phase ≠ .clearing left e ∧ c.client.phase ≠ .refused e) ∧
      ∃ log, c.client.returned = answers log := by
  rcases sound with greeting | ⟨-, orderly⟩
  · cases greeting with
    | fresh same => simp [same, Config.accepted, answers]
    | asked same => simp [same, answers]
    | answered data stream again rest short same => simp [same, answers]
  · have here : (session bus c).client = c.client := rfl
    cases orderly.stage with
    | idle phase stream returned =>
      rw [here] at phase returned
      exact ⟨by simp [phase], _, returned⟩
    | response header payload data length again log e phase eight size rest short logged carries
        returned =>
      rw [here] at phase returned
      exact ⟨by simp [phase], log, returned⟩
    | acknowledgement header log e phase eight rest logged carries returned =>
      rw [here] at phase returned
      exact ⟨by simp [phase], log, returned⟩

private theorem as_whole_of_course {labels : List Label} {c : Config δ} (long : token.length = 32)
    (course : Course bus token buffer device labels c) :
    AsWhole bus token (Config.accepted token buffer device) labels c := by
  obtain ⟨unharmed, log, answered⟩ := sound_unharmed (sound_of_course course)
  refine ⟨unharmed, ?_, ?_⟩
  · intro k e
    rw [answered]
    exact answers_not_raised log k e
  · intro idle full d same delivered fully path ended
    have whole : Along (Config.step bus) WholeAcknowledgement full
        (Config.accepted token buffer device) := by
      apply along_mono _ fully
      intro l inside s ok
      exact whole_of_full ok
    obtain ⟨returned, received, read, server⟩ := course_idle course idle
    obtain ⟨returned', received', read', server'⟩ :=
      course_idle (course_run long delivered whole path) ended
    rw [same] at server'
    have agree : c.server = d.server := server.trans server'.symm
    exact ⟨by rw [returned, returned', agree], by rw [received, received'], by rw [read, read'],
      agree⟩

private theorem short_acknowledgement {bytes : ℕ} {c d : Config δ}
    (sound : Sound bus token buffer device c)
    (acknowledging : c.client.phase.acknowledging = true) (short : bytes ≠ 8) (moved : c.receive bytes = some d) :
    d.client.phase = .clearing 100 .wrongControl := by
  obtain ⟨header, phase, eight⟩ :
      ∃ header, c.client.phase = .acknowledgement header ∧ header.length = 8 := by
    rcases sound with greeting | ⟨-, orderly⟩
    · cases greeting with
      | fresh same => cases same ▸ acknowledging
      | asked same => cases same ▸ acknowledging
      | answered data stream again rest few same => cases same ▸ acknowledging
    · have here : (session bus c).client.phase.acknowledging = true := acknowledging
      cases orderly.stage with
      | idle phase => cases phase ▸ here
      | response header payload data length again log e phase => cases phase ▸ here
      | acknowledgement header log e phase eight => exact ⟨header, phase, eight⟩
  obtain ⟨most, wanted, ⟨positive, within, there⟩, rfl⟩ := Config.receive_cases moved
  have differs : c.toClient.take bytes ≠ header := by
    intro same
    have size := congrArg List.length same
    rw [List.length_take, eight] at size
    omega
  rw [Client.deliver_acknowledgement false phase, if_neg differs]
  rfl

private theorem whole_of_prefixes (long : token.length = 32) {labels : List Label} :
    ∀ {c : Config δ},
      run (Config.step bus) labels (Config.accepted token buffer device) = some c →
      Along (Config.step bus) (Delivered token) labels (Config.accepted token buffer device) →
      (∀ past s, past <+: labels →
        run (Config.step bus) past (Config.accepted token buffer device) = some s →
        AsWhole bus token (Config.accepted token buffer device) past s) →
      Along (Config.step bus) WholeAcknowledgement labels
        (Config.accepted token buffer device) := by
  -- induction from the end: the run up to the last step is whole, so its state is sound
  induction labels using List.reverseRecOn with
  | nil => exact fun _ _ _ => trivial
  | append_singleton past l ih =>
    intro c path delivered every
    obtain ⟨m, before, last⟩ := run_append.mp path
    obtain ⟨early, late⟩ := along_append.mp delivered
    have whole := ih before early fun older s shorter =>
      every older s (shorter.trans (List.prefix_append past [l]))
    refine along_append.mpr ⟨whole, fun n reached => ⟨?_, fun _ _ => trivial⟩⟩
    obtain rfl : m = n := Option.some.inj (before.symm.trans reached)
    have sound := sound_of_course (course_run long early whole before)
    cases l with
    | receive bytes =>
      intro acknowledging
      by_contra short
      obtain ⟨d, moved, same⟩ := run_cons.mp last
      obtain rfl : d = c := by simpa using same
      have broken := short_acknowledgement sound acknowledging short moved
      exact ((every _ d List.prefix_rfl path).unharmed 100 .wrongControl).1 broken
    | _ => trivial

private theorem inside_started {l : Label} {c d : Config δ} (inside : Inside l c)
    (started : c.client.phase ≠ .unconnected) (moved : c.step bus l = some d) :
    d.client.phase ≠ .unconnected := by
  cases l with
  | serve =>
    obtain ⟨next, -, rfl⟩ := Config.serve_cases moved
    exact started
  | receive bytes =>
    obtain ⟨most, -, -, rfl⟩ := Config.receive_cases moved
    exact Client.deliver_connected _ false started
  | _ => exact inside.elim

private theorem sound_in_turn {l : Label} {c d : Config δ} (long : token.length = 32)
    (sound : Sound bus token buffer device c) (inTurn : InTurn c) (delivered : Delivered token l c)
    (moved : c.step bus l = some d) : InTurn d := by
  rcases sound with greeting | before
  · obtain ⟨-, next, -⟩ := greeting_step long greeting delivered moved
    apply in_turn_unsent
    rcases next with still | rfl
    · cases still with
      | fresh same => exact same ▸ rfl
      | asked same => exact same ▸ rfl
      | answered data stream again rest short same => exact same ▸ rfl
    · rfl
  · exact in_turn_step before inTurn moved

private theorem sound_all_prompt {c : Config δ} (sound : Sound bus token buffer device c)
    (inTurn : InTurn c) (idle : c.client.phase = .idle) : AllPrompt c := by
  rcases sound with greeting | before
  · exact absurd idle (greeting_not_idle greeting)
  · exact all_prompt_of_idle before inTurn idle

private theorem delivered_of_inside {l : Label} {c : Config δ} (inside : Inside l c) :
    Delivered token l c := by
  cases l with
  | serve => trivial
  | receive bytes => trivial
  | _ => exact inside.elim

private theorem sound_ends {c : Config δ} (long : token.length = 32)
    (sound : Sound bus token buffer device c) (all_prompt : AllPrompt c)
    (started : c.client.phase ≠ .unconnected) :
    ∃ more d, Along (Config.step bus) (fun l c => Inside l c ∧ FullReceive l c) more c ∧
      run (Config.step bus) more c = some d ∧ d.client.phase = .idle := by
  apply run_reaches (fun s => s.client.phase = .idle)
    (fun s => Sound bus token buffer device s ∧ AllPrompt s ∧ s.client.phase ≠ .unconnected)
    (remaining bus) (fun l s => Inside l s ∧ FullReceive l s) _ _ ⟨sound, all_prompt, started⟩
  · rintro s ⟨here, quick, connected⟩ busy
    obtain ⟨l, t, inside, full, moved⟩ := sound_enabled long here quick connected busy
    exact ⟨l, t, ⟨inside, full⟩, moved⟩
  · rintro l s t ⟨here, quick, connected⟩ ⟨inside, full⟩ moved
    obtain ⟨after, less⟩ := sound_decreases long here inside (whole_of_full full) moved
    exact ⟨⟨after, all_prompt_inside quick inside moved, inside_started inside connected moved⟩, less⟩

/-- An empty write waits for a byte behind it, and inside the call there is none. -/
private theorem all_prompt_of_ended {c d : Config δ} {more : List Label} (long : token.length = 32)
    (sound : Sound bus token buffer device c) (inTurn : InTurn c)
    (inside : Along (Config.step bus) (fun l c => Inside l c ∧ FullReceive l c) more c)
    (path : run (Config.step bus) more c = some d) (idle : d.client.phase = .idle) : AllPrompt c := by
  obtain ⟨after, last⟩ := run_invariant
    (fun s => Sound bus token buffer device s ∧ InTurn s)
    (fun l s t here both moved =>
      ⟨(sound_decreases long here.1 both.1 (whole_of_full both.2) moved).1,
        sound_in_turn long here.1 here.2 (delivered_of_inside both.1) moved⟩)
    ⟨sound, inTurn⟩ inside path
  intro q there
  apply sound_all_prompt after last idle
  rw [requests_run path]
  exact List.mem_append_left _ there

private theorem all_prompt_iff {ops : List SocketClient.Op} :
    (∀ q ∈ requests ops, prompt q) ↔ ∀ address, SocketClient.Op.writes address [] ∉ ops := by
  constructor
  · intro all_prompt address there
    exact all_prompt _ (List.mem_filterMap.mpr ⟨_, there, rfl⟩) rfl
  · intro no_empty q there
    obtain ⟨op, member, is⟩ := List.mem_filterMap.mp there
    cases op with
    | reads address length =>
      cases is
      trivial
    | readFromRam offset length =>
      simp only [SocketClient.Op.request] at is
      split at is
      · cases is
        trivial
      · cases is
    | writes address values =>
      cases is
      intro none_left
      rcases List.take_eq_nil_iff.mp none_left with few | rfl
      · cases few
      · exact no_empty address member

/-- Over all ways to cut the streams: every state of a run is as if each receive had returned all
it asked for exactly when every acknowledgement of a write is received in one piece. Then the
handshake, and the call in progress, ends on every schedule within a bound, and on some schedule
exactly if no call is an empty write, whose acknowledgement waits for a byte of a later call. -/
theorem as_whole_iff_whole_acknowledgements (bus : Bus δ) (token : List Byte)
    (long : token.length = 32) (buffer : ℕ → Word) (device : δ) (labels : List Label)
    (c : Config δ)
    (path : run (Config.step bus) labels (Config.accepted token buffer device) = some c)
    (delivered : Along (Config.step bus) (Delivered token) labels
      (Config.accepted token buffer device)) :
    ((∀ past s, past <+: labels →
        run (Config.step bus) past (Config.accepted token buffer device) = some s →
        AsWhole bus token (Config.accepted token buffer device) past s) ↔
      Along (Config.step bus) WholeAcknowledgement labels
        (Config.accepted token buffer device)) ∧
    (Along (Config.step bus) WholeAcknowledgement labels (Config.accepted token buffer device) →
      (c.client.phase ≠ .unconnected →
        ((∃ more d, Along (Config.step bus) (fun l c => Inside l c ∧ FullReceive l c) more c ∧
            run (Config.step bus) more c = some d ∧ d.client.phase = .idle) ↔
          ∀ address, SocketClient.Op.writes address [] ∉ calls labels)) ∧
      ∃ bound, ∀ more d,
        Along (Config.step bus) (fun l c => Inside l c ∧ WholeAcknowledgement l c) more c →
        run (Config.step bus) more c = some d → more.length ≤ bound) := by
  refine ⟨⟨whole_of_prefixes long path delivered, ?_⟩, fun whole => ?_⟩
  · rintro whole past s ⟨rest, rfl⟩ reached
    have early := (along_append.mp delivered).1
    exact as_whole_of_course long (course_run long early (along_append.mp whole).1 reached)
  · have sound := sound_of_course (course_run long delivered whole path)
    have sent : c.client.requests = requests (calls labels) := requests_run path
    refine ⟨fun started => ?_, remaining bus c, fun more d inside steps => ?_⟩
    · rw [← all_prompt_iff, ← sent]
      have turns := run_invariant (fun s => Sound bus token buffer device s ∧ InTurn s)
        (fun l s t here both moved => ⟨sound_step long here.1 both.1 both.2 moved,
          sound_in_turn long here.1 here.2 both.1 moved⟩)
        ⟨.inl (.fresh rfl), in_turn_unsent rfl⟩ (along_and delivered whole) path
      constructor
      · rintro ⟨more, d, inside, steps, idle⟩
        exact all_prompt_of_ended long sound turns.2 inside steps idle
      · exact fun all_prompt => sound_ends long sound all_prompt started
    · have bound := run_length_le (Sound bus token buffer device) (remaining bus)
        (fun l s => Inside l s ∧ WholeAcknowledgement l s)
        (fun _ _ _ here both moved => sound_decreases long here both.1 both.2 moved)
        sound inside steps
      omega

def demoToken : List Byte := List.replicate 32 (low 'a'.toNat)

def wholeWrite : List Label :=
  [.start demoToken, .serve, .receive 20, .receive 12,
    .call (.writes 0x40000000 [7]), .serve, .serve, .receive 8]

def cutWrite : List Label :=
  [.start demoToken, .serve, .receive 20, .receive 12,
    .call (.writes 0x40000000 [7]), .serve, .serve, .receive 3, .receive 5]

private theorem write_delivered {labels : List Label} {start : Config Word}
    (inside : ∀ l ∈ labels, l = .start demoToken ∨ l = .call (.writes 0x40000000 [7]) ∨
      l = .serve ∨ ∃ bytes, l = .receive bytes) :
    Along (Config.step MonitorServer.latch) (Delivered demoToken) labels start := by
  apply along_of_labels
  intro l member s
  rcases inside l member with rfl | rfl | rfl | ⟨bytes, rfl⟩
  · rfl
  · exact ⟨_, rfl, trivial⟩
  · trivial
  · trivial

theorem as_whole_iff_whole_write :
    ∃ c, run (Config.step MonitorServer.latch) wholeWrite
        (Config.accepted demoToken (fun _ => 0) 0) = some c ∧
      AsWhole MonitorServer.latch demoToken (Config.accepted demoToken (fun _ => 0) 0)
        wholeWrite c :=
  ⟨_, rfl, (as_whole_iff_whole_acknowledgements MonitorServer.latch demoToken rfl (fun _ => 0) 0
    wholeWrite _ rfl (write_delivered (by simp [wholeWrite]))).1.mpr (by decide) wholeWrite _
    List.prefix_rfl rfl⟩

/-- The client is about to raise although the acknowledgement has arrived in full. -/
theorem cut_acknowledgement_counterexample :
    Along (Config.step MonitorServer.latch) (Delivered demoToken) cutWrite
        (Config.accepted demoToken (fun _ => 0) 0) ∧
      ∃ c, run (Config.step MonitorServer.latch) cutWrite
          (Config.accepted demoToken (fun _ => 0) 0) = some c ∧
        c.toClient = [] ∧ c.client.phase = .clearing 99 .wrongControl ∧
        ¬ AsWhole MonitorServer.latch demoToken (Config.accepted demoToken (fun _ => 0) 0)
          cutWrite c := by
  refine ⟨write_delivered (by simp [cutWrite]), _, rfl, rfl, rfl, fun whole => ?_⟩
  exact (whole.unharmed 99 .wrongControl).1 rfl

end Pypga.Remote.Segmentation
