/- GID: Pypga/Remote/TokenReplies
   generality: G
   digest: What failed connection attempts tell a client about the token of the server. -/

import Pypga.Remote.MonitorServer

set_option autoImplicit false
set_option relaxedAutoImplicit false

namespace Pypga.Remote.TokenReplies

open Pypga.Foundation.LittleEndian (Byte Word low)
open Pypga.Remote.MonitorServer

variable {δ : Type*} (bus : Bus δ)

def converse : ℕ → Server δ → List Byte → Served δ
  | 0, s, input => ⟨s, input, []⟩
  | n + 1, s, input =>
    match serve bus s input with
    | none => ⟨s, input, []⟩
    | some next =>
      let rest := converse n next.server next.unread
      { rest with sent := next.sent ++ rest.sent }

def receives (s : Server δ) (input : List Byte) : ℕ :=
  match s.phase with
  | .body _ _ _ => 2 * input.length + 1
  | _ => 2 * input.length

def forked (token : List Byte) (buffer : ℕ → Word) (device : δ) : Server δ :=
  ⟨.token token, buffer, device, []⟩

/-- A connection on which the client sends these bytes. -/
def connect (token : List Byte) (buffer : ℕ → Word) (device : δ) (input : List Byte) : Served δ :=
  converse bus (receives (forked token buffer device) input) (forked token buffer device) input

def replies (token : List Byte) (buffer : ℕ → Word) : δ → List (List Byte) → List (List Byte)
  | _, [] => []
  | device, input :: inputs =>
    let c := connect bus token buffer device input
    c.sent :: replies token buffer c.server.device inputs

def Enters (token : List Byte) (buffer : ℕ → Word) (device : δ) (input : List Byte) : Prop :=
  ∃ next, serve bus (forked token buffer device) input = some next ∧ next.server.phase = .header

variable {bus}

private theorem receives_le (s : Server δ) (input : List Byte) :
    receives s input ≤ 2 * input.length + 1 := by
  unfold receives
  split <;> omega

private theorem receives_of_header {s : Server δ} (phase : s.phase = .header) (input : List Byte) :
    receives s input = 2 * input.length := by
  simp only [receives, phase]

private theorem le_receives (s : Server δ) (input : List Byte) :
    2 * input.length ≤ receives s input := by
  unfold receives
  split <;> omega

private theorem receives_lt {s : Server δ} {input : List Byte} {next : Served δ}
    (served : serve bus s input = some next) :
    receives next.server next.unread < receives s input := by
  have before := le_receives s input
  have after := receives_le next.server next.unread
  unfold serve at served
  split at served
  · split at served
    · cases served
    · cases served
      rw [List.length_drop] at after
      omega
  · split at served
    · cases served
      simp only [List.length_cons] at before
      dsimp only at after ⊢
      omega
    · cases served
  · rename_i header address length phase
    split at served
    · cases served
    · cases served
      -- no byte is needed for an empty body, but the next receive is that of a header
      rw [receives_of_header rfl, List.length_drop]
      simp only [receives, phase]
      omega
  · cases served
  · cases served

/-- The receives of a connection are all there are: the process has ended, or it waits for more. -/
theorem converse_complete (n : ℕ) (s : Server δ) (input : List Byte) (enough : receives s input ≤ n) :
    serve bus (converse bus n s input).server (converse bus n s input).unread = none := by
  induction n generalizing s input with
  | zero =>
    cases served : serve bus s input with
    | none => exact served
    | some next =>
      have less := receives_lt served
      omega
  | succ n ih =>
    cases served : serve bus s input with
    | none => simp only [converse, served]
    | some next =>
      have less := receives_lt served
      simp only [converse, served]
      exact ih next.server next.unread (by omega)

section Attempts

variable {token : List Byte} {buffer : ℕ → Word} {device : δ}

private theorem converse_failed {s : Server δ} (failed : s.phase = .failed) (n : ℕ)
    (input : List Byte) :
    converse bus n s input = ⟨s, input, []⟩ := by
  cases n with
  | zero => rfl
  | succ n => simp only [converse, serve, failed]

private theorem connect_short {input : List Byte} (short : input.length < 32) :
    connect bus token buffer device input = ⟨forked token buffer device, input, []⟩ := by
  have waits : serve bus (forked token buffer device) input = none := by
    simp only [serve, forked, short, if_true]
  unfold connect
  cases receives (forked token buffer device) input with
  | zero => rfl
  | succ n => simp only [converse, waits]

private theorem serve_token {input : List Byte} (whole : 32 ≤ input.length) :
    serve bus (forked token buffer device) input =
      some ⟨((forked token buffer device).authenticate token (input.take 32)).1, input.drop 32,
        ((forked token buffer device).authenticate token (input.take 32)).2⟩ := by
  have enough : ¬ input.length < 32 := by omega
  simp only [serve, forked, enough, if_false]

private theorem connect_wrong {input : List Byte} (whole : 32 ≤ input.length)
    (wrong : input.take 32 ≠ token) :
    (connect bus token buffer device input).sent = token ∧
      (connect bus token buffer device input).server.device = device ∧
      (connect bus token buffer device input).server.phase = .failed := by
  have some_bytes : ∃ n, receives (forked token buffer device) input = n + 1 := by
    have bytes := le_receives (forked token buffer device) input
    exact ⟨receives (forked token buffer device) input - 1, by omega⟩
  obtain ⟨n, count⟩ := some_bytes
  have refused : (forked token buffer device).authenticate token (input.take 32) =
      ({ forked token buffer device with
        phase := .failed, buffer := Server.tokenBuffer (input.take 32) buffer }, token) := by
    rw [Server.authenticate, if_neg wrong]
    rfl
  rw [connect, count, converse, serve_token whole, refused]
  dsimp only
  rw [converse_failed rfl]
  exact ⟨List.append_nil token, rfl, rfl⟩

private theorem enters_iff (input : List Byte) :
    Enters bus token buffer device input ↔ 32 ≤ input.length ∧ input.take 32 = token := by
  constructor
  · rintro ⟨next, served, phase⟩
    have whole : 32 ≤ input.length := by
      by_contra short
      have waits : serve bus (forked token buffer device) input = none := by
        simp only [serve, forked, Nat.not_le.mp short, if_true]
      rw [waits] at served
      cases served
    refine ⟨whole, ?_⟩
    by_contra wrong
    rw [serve_token whole, Server.authenticate, if_neg wrong] at served
    cases served
    cases phase
  · rintro ⟨whole, right⟩
    refine ⟨_, serve_token whole, ?_⟩
    rw [Server.authenticate, if_pos right]

private theorem replies_wrong {inputs : List (List Byte)}
    (wrong : ∀ a ∈ inputs, a.take 32 ≠ token) :
    replies bus token buffer device inputs =
      inputs.map fun a => if a.length < 32 then [] else token := by
  induction inputs with
  | nil => rfl
  | cons a inputs ih =>
    have rest := ih fun b member => wrong b (List.mem_cons_of_mem a member)
    rw [replies, List.map_cons]
    split_ifs with short
    · rw [connect_short short]
      exact congrArg (List.cons []) rest
    · obtain ⟨sent, same, -⟩ : (connect bus token buffer device a).sent = token ∧
          (connect bus token buffer device a).server.device = device ∧ _ :=
        connect_wrong (Nat.not_lt.mp short) (wrong a List.mem_cons_self)
      rw [sent, same, rest]

end Attempts

/-- Failed attempts are answered with the token of the server, each whole one of them, so the
replies do not depend on it only if there is no such attempt. None of them enters the service
loop, but what any whole one receives does. -/
theorem replies_agree_iff (bus : Bus δ) (token token' : List Byte) (full : token.length = 32)
    (buffer : ℕ → Word) (device : δ) (inputs : List (List Byte))
    (wrong : ∀ a ∈ inputs, a.take 32 ≠ token ∧ a.take 32 ≠ token') :
    replies bus token buffer device inputs =
      (inputs.map fun a => if a.length < 32 then [] else token) ∧
    (replies bus token buffer device inputs = replies bus token' buffer device inputs ↔
      token = token' ∨ ∀ a ∈ inputs, a.length < 32) ∧
    (∀ a ∈ inputs, ¬ Enters bus token buffer device a) ∧
    (∀ a ∈ inputs, 32 ≤ a.length →
      Enters bus token buffer device (connect bus token buffer device a).sent) := by
  refine ⟨replies_wrong fun a member => (wrong a member).1, ?_, ?_, ?_⟩
  · rw [replies_wrong fun a member => (wrong a member).1, replies_wrong fun a member => (wrong a member).2]
    constructor
    · intro same
      by_cases short : ∀ a ∈ inputs, a.length < 32
      · exact .inr short
      · obtain ⟨a, some_whole⟩ := not_forall.mp short
        obtain ⟨member, whole⟩ := Classical.not_imp.mp some_whole
        have whole := Nat.not_lt.mp whole
        have here := List.map_inj_left.mp same a member
        rw [if_neg (Nat.not_lt.mpr whole), if_neg (Nat.not_lt.mpr whole)] at here
        exact .inl here
    · rintro (rfl | short)
      · rfl
      · apply List.map_congr_left
        intro a member
        rw [if_pos (short a member), if_pos (short a member)]
  · intro a member enters
    exact (wrong a member).1 ((enters_iff a).mp enters).2
  · intro a member whole
    rw [(connect_wrong whole (wrong a member).1).1]
    apply (enters_iff token).mpr
    exact ⟨full.ge, by rw [← full, List.take_length]⟩

def tokenOf (c : Char) : List Byte := List.replicate 32 (low c.toNat)

theorem replies_agree_short :
    replies latch (tokenOf 'a') (fun _ => 0) 0 [[], List.replicate 31 (low 'a'.toNat)] =
      replies latch (tokenOf 'b') (fun _ => 0) 0 [[], List.replicate 31 (low 'a'.toNat)] :=
  (replies_agree_iff latch (tokenOf 'a') (tokenOf 'b') rfl (fun _ => 0) 0
    [[], List.replicate 31 (low 'a'.toNat)] (by decide)).2.1.mpr (.inr (by decide))

/-- One wrong attempt, and the reply to it opens the next connection. -/
theorem replies_agree_counterexample :
    (∀ a ∈ [tokenOf '0'], a.take 32 ≠ tokenOf 'a' ∧ a.take 32 ≠ tokenOf 'b') ∧
      replies latch (tokenOf 'a') (fun _ => 0) 0 [tokenOf '0'] = [tokenOf 'a'] ∧
      replies latch (tokenOf 'a') (fun _ => 0) 0 [tokenOf '0'] ≠
        replies latch (tokenOf 'b') (fun _ => 0) 0 [tokenOf '0'] ∧
      Enters latch (tokenOf 'a') (fun _ => 0) 0 (tokenOf 'a') := by
  have first : replies latch (tokenOf 'a') (fun _ => 0) 0 [tokenOf '0'] = [tokenOf 'a'] :=
    replies_wrong (by decide)
  have second : replies latch (tokenOf 'b') (fun _ => 0) 0 [tokenOf '0'] = [tokenOf 'b'] :=
    replies_wrong (by decide)
  refine ⟨by decide, first, ?_, (enters_iff _).mpr ⟨by decide, rfl⟩⟩
  rw [first, second]
  decide

end Pypga.Remote.TokenReplies
