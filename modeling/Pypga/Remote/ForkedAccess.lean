/- GID: Pypga/Remote/ForkedAccess
   generality: G
   digest: The processes of several connections take turns at the bus, one access at a time. -/

import Pypga.Foundation.LabelledRun
import Pypga.Remote.MonitorServer

set_option autoImplicit false
set_option relaxedAutoImplicit false

namespace Pypga.Remote.ForkedAccess

open Pypga.Foundation.LabelledRun
open Pypga.Foundation.LittleEndian (Word)
open Pypga.Remote.MonitorServer

inductive Command
  | read (address : Word) (length : ℕ)
  | write (address : Word) (words : List Word)
  | copy (offset bytes : ℕ)
  deriving DecidableEq

def Command.words : Command → ℕ
  | .read _ length => length
  | .write _ words => words.length
  | .copy _ _ => 0

/-- What a process does next. The loops of `read_values` and `write_values` access the bus twice for
each entry `i`: they select it, and then they transfer its word. -/
inductive Task
  | waiting
  | single (writing : Bool) (address : Word)
  | select (writing : Bool) (address : Word) (length i : ℕ)
  | transfer (writing : Bool) (address : Word) (length i : ℕ)
  | copy (offset bytes : ℕ)
  | failed
  deriving DecidableEq

/-- A forked process with its own `rw_buffer`. -/
structure Process where
  task : Task
  buffer : ℕ → Word

structure System (π δ : Type*) where
  process : π → Process
  device : δ

inductive Label (π : Type*)
  | begin (p : π) (c : Command)
  | access (p : π)
  deriving DecidableEq

/-- A single word is accessed without an index. -/
def loop (writing : Bool) (address : Word) (length : ℕ) : Task :=
  if 1 < length then .select writing address length 0 else .single writing address

def Process.begin (b : Process) : Command → Process
  | .read address length => { b with task := loop false address length }
  | .write address words => ⟨loop true address words.length, fill b.buffer words⟩
  | .copy offset bytes => { b with task := if bytes = 0 then .waiting else .copy offset bytes }

def continued (writing : Bool) (address : Word) (length i : ℕ) : Task :=
  if i + 1 < length then .select writing address length (i + 1) else .waiting

variable {π δ : Type*} (bus : Bus δ)

def Process.access (b : Process) (d : δ) : Option (Process × δ) :=
  match b.task with
  | .waiting => none
  | .failed => none
  | .single false address =>
    let loaded := bus.load address d
    some (⟨.waiting, Function.update b.buffer 0 loaded.1⟩, loaded.2)
  | .single true address => some ({ b with task := .waiting }, bus.store address (b.buffer 0) d)
  | .select writing address length i =>
    some ({ b with task := .transfer writing address length i }, bus.store address (indexWord i) d)
  | .transfer false address length i =>
    let loaded := bus.load address d
    some (⟨continued false address length i, Function.update b.buffer i loaded.1⟩, loaded.2)
  | .transfer true address length i =>
    some ({ b with task := continued true address length i },
      bus.store address (b.buffer i <<< 1) d)
  | .copy offset bytes =>
    match bus.fetch offset d with
    | none => some ({ b with task := .failed }, d)
    | some fetched =>
      some ({ b with task := if bytes = 1 then .waiting else .copy (offset + 1) (bytes - 1) },
        fetched.2)

theorem begin_task (b : Process) (c : Command) {writing : Bool} {address : Word} {length i : ℕ} :
    (b.begin c).task ≠ .transfer writing address length i := by
  cases c <;> dsimp only [Process.begin, loop] <;> split_ifs <;> exact nofun

def Task.Inside : Task → Prop
  | .select _ _ length i => i < length ∧ length ≤ maxLength
  | .transfer _ _ length i => i < length ∧ length ≤ maxLength
  | _ => True

def Task.left : Task → ℕ
  | .select _ _ length i => 2 * (length - i)
  | .transfer _ _ length i => 2 * (length - i) - 1
  | _ => 0

private theorem left_continued (writing : Bool) (address : Word) (length i : ℕ) :
    (continued writing address length i).left = 2 * (length - (i + 1)) := by
  unfold continued
  split_ifs with more
  · rfl
  · rw [Nat.sub_eq_zero_of_le (Nat.le_of_not_lt more)]
    rfl

private theorem loop_inside (writing : Bool) (address : Word) {length : ℕ}
    (short : length ≤ maxLength) :
    (loop writing address length).Inside := by
  unfold loop
  split_ifs with many
  · exact ⟨by omega, short⟩
  · trivial

private theorem continued_inside (writing : Bool) (address : Word) {length i : ℕ}
    (inside : i < length ∧ length ≤ maxLength) : (continued writing address length i).Inside := by
  unfold continued
  split_ifs with more
  · exact ⟨more, inside.2⟩
  · trivial

def Process.stores (b : Process) : Option (Word × Word) :=
  match b.task with
  | .single true address => some (address, b.buffer 0)
  | .select _ address _ i => some (address, indexWord i)
  | .transfer true address _ i => some (address, b.buffer i <<< 1)
  | _ => none

section Access

variable {bus} {b b' : Process} {d d' : δ} (moved : b.access bus d = some (b', d'))
include moved

theorem access_device :
    (∃ address word, b.stores = some (address, word) ∧ d' = bus.store address word d) ∨
    (b.stores = none ∧ ((∃ address, d' = (bus.load address d).2) ∨
      d' = d ∨ ∃ offset fetched, bus.fetch offset d = some fetched ∧ d' = fetched.2)) := by
  unfold Process.access at moved
  unfold Process.stores
  split at moved <;> rename_i task <;> rw [task]
  · cases moved
  · cases moved
  · cases moved
    exact .inr ⟨rfl, .inl ⟨_, rfl⟩⟩
  · cases moved
    exact .inl ⟨_, _, rfl, rfl⟩
  · cases moved
    exact .inl ⟨_, _, rfl, rfl⟩
  · cases moved
    exact .inr ⟨rfl, .inl ⟨_, rfl⟩⟩
  · cases moved
    exact .inl ⟨_, _, rfl, rfl⟩
  · rename_i offset bytes
    split at moved
    · cases moved
      exact .inr ⟨rfl, .inr (.inl rfl)⟩
    · rename_i fetched found
      cases moved
      exact .inr ⟨rfl, .inr (.inr ⟨offset, fetched, found, rfl⟩)⟩

theorem access_task :
    match b.task with
    | .select writing address length i =>
      b' = { b with task := .transfer writing address length i } ∧
        d' = bus.store address (indexWord i) d
    | .transfer false address length i =>
      b' = ⟨continued false address length i, Function.update b.buffer i (bus.load address d).1⟩ ∧
        d' = (bus.load address d).2
    | .transfer true address length i =>
      b' = { b with task := continued true address length i } ∧
        d' = bus.store address (b.buffer i <<< 1) d
    | _ => b'.task = .waiting ∨ b'.task = .failed ∨ ∃ offset bytes, b'.task = .copy offset bytes := by
  unfold Process.access at moved
  split at moved <;> rename_i task <;> rw [task]
  · cases moved
  · cases moved
  · cases moved
    exact .inl rfl
  · cases moved
    exact .inl rfl
  · cases moved
    exact ⟨rfl, rfl⟩
  · cases moved
    exact ⟨rfl, rfl⟩
  · cases moved
    exact ⟨rfl, rfl⟩
  · rename_i offset bytes
    split at moved
    · cases moved
      exact .inr (.inl rfl)
    · cases moved
      dsimp only
      split_ifs
      · exact .inl rfl
      · exact .inr (.inr ⟨_, _, rfl⟩)

theorem select_before {writing : Bool} {address : Word} {length i : ℕ}
    (after : b'.task = .transfer writing address length i) :
    b.task = .select writing address length i := by
  have next := access_task moved
  split at next
  · rename_i task
    rw [next.1] at after
    cases after
    exact task
  · rw [next.1] at after
    dsimp only [continued] at after
    split_ifs at after
  · rw [next.1] at after
    dsimp only [continued] at after
    split_ifs at after
  · rw [after] at next
    simp at next

private theorem access_inside (inside : b.task.Inside) : b'.task.Inside := by
  have next := access_task moved
  split at next <;> rename_i task
  · rw [task] at inside
    rw [next.1]
    exact inside
  · rw [task] at inside
    rw [next.1]
    exact continued_inside false _ inside
  · rw [task] at inside
    rw [next.1]
    exact continued_inside true _ inside
  · rcases next with done | failed | ⟨offset, bytes, more⟩
    · rw [done]
      trivial
    · rw [failed]
      trivial
    · rw [more]
      trivial

end Access

variable [DecidableEq π]

namespace System

def begun (s : System π δ) (p : π) (c : Command) : System π δ :=
  { s with process := Function.update s.process p ((s.process p).begin c) }

@[simp] theorem begun_self (s : System π δ) (p : π) (c : Command) :
    (s.begun p c).process p = (s.process p).begin c := Function.update_self p _ _

theorem begun_of_ne (s : System π δ) {p q : π} (other : q ≠ p) (c : Command) :
    (s.begun p c).process q = s.process q := Function.update_of_ne other _ _

/-- A process takes its next command, or any process that has one to execute makes one access. -/
def step : Label π → System π δ → Option (System π δ)
  | .begin p c, s =>
    if (s.process p).task = .waiting ∧ c.words ≤ maxLength then some (s.begun p c) else none
  | .access p, s =>
    ((s.process p).access bus s.device).map fun next =>
      ⟨Function.update s.process p next.1, next.2⟩

variable {bus}

theorem step_access {p : π} {s s' : System π δ} :
    step bus (.access p) s = some s' ↔
      ∃ b d, (s.process p).access bus s.device = some (b, d) ∧
        s' = ⟨Function.update s.process p b, d⟩ := by
  simp only [step, Option.map_eq_some_iff, Prod.exists]
  constructor
  · rintro ⟨b, d, access, rfl⟩
    exact ⟨b, d, access, rfl⟩
  · rintro ⟨b, d, access, rfl⟩
    exact ⟨b, d, access, rfl⟩

private theorem process_other {l : Label π} {p : π} {s s' : System π δ}
    (moved : step bus l s = some s')
    (other : ∀ c, l ≠ .begin p c) (other' : l ≠ .access p) : s'.process p = s.process p := by
  cases l with
  | begin q c =>
    have differ : p ≠ q := fun same => other c (same ▸ rfl)
    simp only [step] at moved
    split_ifs at moved
    cases moved
    exact Function.update_of_ne differ _ _
  | access q =>
    have differ : p ≠ q := fun same => other' (same ▸ rfl)
    obtain ⟨b, d, -, rfl⟩ := step_access.mp moved
    exact Function.update_of_ne differ _ _

theorem step_begin {p : π} {c : Command} {s s' : System π δ} :
    step bus (.begin p c) s = some s' ↔
      (s.process p).task = .waiting ∧ c.words ≤ maxLength ∧ s' = s.begun p c := by
  simp only [step]
  split_ifs with ready
  · rw [Option.some.injEq, eq_comm]
    exact ⟨fun same => ⟨ready.1, ready.2, same⟩, fun same => same.2.2⟩
  · exact iff_of_false (fun same => nomatch same) fun same => ready ⟨same.1, same.2.1⟩

def Inside (s : System π δ) : Prop := ∀ p, (s.process p).task.Inside

theorem inside_step {l : Label π} {s s' : System π δ} (inside : s.Inside)
    (moved : step bus l s = some s') : s'.Inside := by
  intro q
  cases l with
  | begin p c =>
    obtain ⟨-, short, rfl⟩ := step_begin.mp moved
    by_cases same : q = p
    · subst same
      rw [begun_self]
      cases c with
      | read address length => exact loop_inside false address short
      | write address words => exact loop_inside true address short
      | copy offset bytes =>
        dsimp only [Process.begin]
        split_ifs <;> trivial
    · rw [begun_of_ne s same]
      exact inside q
  | access p =>
    obtain ⟨b, d, access, rfl⟩ := step_access.mp moved
    by_cases same : q = p
    · subst same
      dsimp only
      rw [Function.update_self]
      exact access_inside access (inside q)
    · dsimp only
      rw [Function.update_of_ne same]
      exact inside q

section Loop

variable {p : π} {writing : Bool} {address : Word} {length : ℕ}

def AtEntry (p : π) (writing : Bool) (address : Word) (length j : ℕ) (s : System π δ) : Prop :=
  (s.process p).task = .select writing address length j ∨
    (s.process p).task = .transfer writing address length j

private theorem entry_step {l : Label π} {s s' : System π δ} (moved : step bus l s = some s')
    (own : ∀ c, l ≠ .begin p c) {j : ℕ} (here : AtEntry p writing address length j s) :
    (l ≠ .access p ∧ s'.process p = s.process p) ∨
    (l = .access p ∧ (s.process p).task = .select writing address length j ∧
      s'.process p = { s.process p with task := .transfer writing address length j }) ∨
    (l = .access p ∧ (s.process p).task = .transfer writing address length j ∧
      (s'.process p).task = continued writing address length j ∧
      (∀ i ≠ j, (s'.process p).buffer i = (s.process p).buffer i) ∧
      (writing = true → (s'.process p).buffer = (s.process p).buffer)) := by
  by_cases mine : l = .access p
  · subst mine
    obtain ⟨b, d, access, rfl⟩ := step_access.mp moved
    have next := access_task access
    dsimp only
    rw [Function.update_self]
    rcases here with task | task
    · rw [task] at next
      exact .inr (.inl ⟨rfl, task, next.1⟩)
    · rw [task] at next
      cases writing with
      | false =>
        refine .inr (.inr ⟨rfl, task, congrArg Process.task next.1, ?_, nofun⟩)
        intro i other
        rw [next.1]
        exact Function.update_of_ne other _ _
      | true =>
        refine .inr (.inr ⟨rfl, task, congrArg Process.task next.1, ?_, ?_⟩)
        · intro i _
          rw [next.1]
        · intro _
          rw [next.1]
  · exact .inl ⟨mine, process_other moved own mine⟩

theorem waiting_step {l : Label π} {s s' : System π δ} (moved : step bus l s = some s')
    (own : ∀ c, l ≠ .begin p c) (waiting : (s.process p).task = .waiting) :
    l ≠ .access p ∧ s'.process p = s.process p := by
  have other : l ≠ .access p := by
    rintro rfl
    obtain ⟨b, d, access, -⟩ := step_access.mp moved
    rw [Process.access, waiting] at access
    cases access
  exact ⟨other, process_other moved own other⟩

private theorem goes_on (bus : Bus δ) {s : System π δ} {j : ℕ}
    (here : AtEntry p writing address length j s) :
    ∃ s', step bus (.access p) s = some s' := by
  have access : ∃ next, (s.process p).access bus s.device = some next := by
    rcases here with task | task <;> cases writing <;> rw [Process.access, task] <;> exact ⟨_, rfl⟩
  obtain ⟨next, access⟩ := access
  exact ⟨_, step_access.mpr ⟨next.1, next.2, access, rfl⟩⟩

omit [DecidableEq π] in
private theorem past_entry {n : System π δ} {j : ℕ}
    (next : (n.process p).task = continued writing address length j) :
    (n.process p).task = .waiting ∨
      ∃ k, j < k ∧ k < length ∧ AtEntry p writing address length k n := by
  rw [continued] at next
  split_ifs at next with more
  · exact .inr ⟨j + 1, Nat.lt_succ_self j, more, .inl next⟩
  · exact .inl next

private theorem buffer_kept {ls : List (Label π)} {s s' : System π δ}
    (path : run (step bus) ls s = some s')
    (own : ∀ c, .begin p c ∉ ls) {i : ℕ}
    (past : (s.process p).task = .waiting ∨
      ∃ j, i < j ∧ j < length ∧ AtEntry p writing address length j s) :
    (s'.process p).buffer i = (s.process p).buffer i := by
  induction ls generalizing s with
  | nil =>
    cases path
    rfl
  | cons l ls ih =>
    obtain ⟨m, moved, rest⟩ := run_cons.mp path
    have foreign : ∀ c, l ≠ .begin p c := fun c same => own c (same ▸ List.mem_cons_self)
    have later : ∀ c, .begin p c ∉ ls := fun c member => own c (List.mem_cons_of_mem l member)
    rcases past with waiting | ⟨j, after, small, here⟩
    · have same := (waiting_step moved foreign waiting).2
      rw [ih rest later (.inl (by rw [same, waiting])), same]
    · rcases entry_step moved foreign here with ⟨-, same⟩ | ⟨-, task, next⟩ | ⟨-, task, next, kept, -⟩
      · have still : AtEntry p writing address length j m := by
          rw [AtEntry, same]
          exact here
        rw [ih rest later (.inr ⟨j, after, small, still⟩), same]
      · have still : AtEntry p writing address length j m := .inr (by rw [next])
        rw [ih rest later (.inr ⟨j, after, small, still⟩), next]
      · have on : (m.process p).task = .waiting ∨
            ∃ k, i < k ∧ k < length ∧ AtEntry p writing address length k m := by
          rcases past_entry next with waiting | ⟨k, beyond, there⟩
          · exact .inl waiting
          · exact .inr ⟨k, after.trans beyond, there⟩
        rw [ih rest later on, kept i (by omega)]

variable (bus) in
/-- In this run the process transfers the word of an entry, and the word is still there at the end. -/
def Transfers (p : π) (writing : Bool) (address : Word) (length i : ℕ) (ls : List (Label π))
    (s s' : System π δ) : Prop :=
  ∃ before after m m', ls = before ++ .access p :: after ∧ run (step bus) before s = some m ∧
    step bus (.access p) m = some m' ∧
    (m.process p).task = .transfer writing address length i ∧
    (writing = true → (m.process p).buffer = (s.process p).buffer) ∧
    (s'.process p).buffer i = (m'.process p).buffer i

theorem Transfers.cons {l : Label π} {ls : List (Label π)} {s n s' : System π δ} {i : ℕ}
    (transfers : Transfers bus p writing address length i ls n s') (moved : step bus l s = some n)
    (same : writing = true → (n.process p).buffer = (s.process p).buffer) :
    Transfers bus p writing address length i (l :: ls) s s' := by
  obtain ⟨before, after, m, m', split, first, access, task, words, final⟩ := transfers
  exact ⟨l :: before, after, m, m', congrArg (List.cons l) split, run_cons.mpr ⟨n, moved, first⟩,
    access, task, fun w => (words w).trans (same w), final⟩

/-- A loop that ends has transferred every entry that was left. -/
theorem entry_transferred {ls : List (Label π)} {s s' : System π δ}
    (path : run (step bus) ls s = some s') (own : ∀ c, .begin p c ∉ ls)
    (ended : (s'.process p).task = .waiting) {j : ℕ} (here : AtEntry p writing address length j s)
    {i : ℕ} (left : j ≤ i) (within : i < length) :
    Transfers bus p writing address length i ls s s' := by
  induction ls generalizing s j with
  | nil =>
    cases path
    rcases here with task | task <;> rw [ended] at task <;> cases task
  | cons l ls ih =>
    obtain ⟨n, moved, rest⟩ := run_cons.mp path
    have foreign : ∀ c, l ≠ .begin p c := fun c same => own c (same ▸ List.mem_cons_self)
    have later : ∀ c, .begin p c ∉ ls := fun c member => own c (List.mem_cons_of_mem l member)
    rcases entry_step moved foreign here with ⟨-, same⟩ | ⟨-, -, next⟩ | ⟨rfl, task, next, -, same⟩
    · have still : AtEntry p writing address length j n := by
        rw [AtEntry, same]
        exact here
      exact (ih rest later still left).cons moved fun _ => congrArg Process.buffer same
    · have still : AtEntry p writing address length j n := .inr (congrArg Process.task next)
      exact (ih rest later still left).cons moved fun _ => by rw [next]
    · by_cases this : i = j
      · subst this
        exact ⟨[], ls, s, n, rfl, rfl, moved, task, fun _ => rfl, buffer_kept rest later (past_entry next)⟩
      · have more : j + 1 < length := by omega
        rw [continued, if_pos more] at next
        exact (ih rest later (.inl next) (by omega)).cons moved same

def InLoop (p : π) (writing : Bool) (address : Word) (length : ℕ) (s : System π δ) : Prop :=
  (s.process p).task = .waiting ∨ ∃ i < length, AtEntry p writing address length i s

structure Advanced (p : π) (writing : Bool) (address : Word) (length : ℕ) (ls : List (Label π))
    (s m : System π δ) : Prop where
  inside : InLoop p writing address length m
  words : writing = true → (m.process p).buffer = (s.process p).buffer
  left : ls.count (.access p) + (m.process p).task.left = (s.process p).task.left

private theorem advanced_step {l : Label π} {s m : System π δ}
    (inside : InLoop p writing address length s)
    (own : ∀ c, l ≠ .begin p c) (moved : step bus l s = some m) :
    Advanced p writing address length [l] s m := by
  rcases inside with waiting | ⟨i, small, here⟩
  · obtain ⟨other, same⟩ := waiting_step moved own waiting
    refine ⟨.inl (by rw [same, waiting]), fun _ => by rw [same], ?_⟩
    rw [same, List.count_singleton, beq_false_of_ne other, if_neg Bool.false_ne_true, Nat.zero_add]
  · rcases entry_step moved own here with ⟨other, same⟩ | ⟨rfl, task, next⟩ | ⟨rfl, task, next, -, same⟩
    · refine ⟨.inr ⟨i, small, ?_⟩, fun _ => by rw [same], ?_⟩
      · rw [AtEntry, same]
        exact here
      · rw [same, List.count_singleton, beq_false_of_ne other, if_neg Bool.false_ne_true, Nat.zero_add]
    · refine ⟨.inr ⟨i, small, .inr (congrArg Process.task next)⟩, fun _ => by rw [next], ?_⟩
      rw [next, task, List.count_singleton_self]
      dsimp only [Task.left]
      omega
    · refine ⟨?_, same, ?_⟩
      · rcases past_entry next with waiting | ⟨k, -, small, there⟩
        · exact .inl waiting
        · exact .inr ⟨k, small, there⟩
      · rw [next, task, List.count_singleton_self, left_continued]
        dsimp only [Task.left]
        omega

theorem advanced_run {ls : List (Label π)} {s m : System π δ} (inside : InLoop p writing address length s)
    (own : ∀ c, .begin p c ∉ ls) (path : run (step bus) ls s = some m) :
    Advanced p writing address length ls s m := by
  have foreign : Along (step bus) (fun l _ => ∀ c, l ≠ .begin p c) ls s :=
    along_of_labels fun l member _ c same => own c (same ▸ member)
  refine run_history (fun ks m => Advanced p writing address length ks s m) ?_
    ⟨inside, fun _ => rfl, Nat.zero_add _⟩ foreign path
  intro ks l m n before foreign moved
  have after := advanced_step before.inside foreign moved
  refine ⟨after.inside, fun w => (after.words w).trans (before.words w), ?_⟩
  rw [List.count_append, Nat.add_assoc, after.left, before.left]

omit [DecidableEq π] in
private theorem ended_iff {s : System π δ} (inside : InLoop p writing address length s) :
    (s.process p).task = .waiting ↔ (s.process p).task.left = 0 := by
  constructor
  · intro waiting
    rw [waiting]
    rfl
  · intro nothing
    rcases inside with waiting | ⟨i, small, task | task⟩
    · exact waiting
    · rw [task] at nothing
      dsimp only [Task.left] at nothing
      omega
    · rw [task] at nothing
      dsimp only [Task.left] at nothing
      omega

theorem loop_begun {s : System π δ} {c : Command} (many : 1 < length)
    (takes : ((s.process p).begin c).task = loop writing address length) :
    AtEntry p writing address length 0 (s.begun p c) ∧
      ((s.begun p c).process p).task.left = 2 * length := by
  have first : ((s.begun p c).process p).task = .select writing address length 0 := by
    rw [begun_self, takes, loop, if_pos many]
  refine ⟨.inl first, ?_⟩
  rw [first]
  rfl

variable (bus) in
structure InTurn (p : π) (length : ℕ) (ls : List (Label π)) (s : System π δ) : Prop where
  most : ls.count (.access p) ≤ 2 * length
  goesOn : ls.count (.access p) < 2 * length → ∃ next, step bus (.access p) s = some next
  ended : (s.process p).task = .waiting ↔ ls.count (.access p) = 2 * length

theorem loop_in_turn {ls : List (Label π)} {s m : System π δ} {c : Command} (many : 1 < length)
    (takes : ((s.process p).begin c).task = loop writing address length) (own : ∀ c, .begin p c ∉ ls)
    (path : run (step bus) ls (s.begun p c) = some m) : InTurn bus p length ls m := by
  obtain ⟨first, all⟩ := loop_begun many takes
  have advanced := advanced_run (.inr ⟨0, by omega, first⟩) own path
  have left := advanced.left
  rw [all] at left
  have ended := ended_iff advanced.inside
  refine ⟨by omega, fun more => ?_, by rw [ended]; omega⟩
  rcases advanced.inside with waiting | ⟨i, -, here⟩
  · rw [ended.mp waiting] at left
    omega
  · exact goes_on bus here

end Loop

section Alone

def entryAccess (bus : Bus δ) (writing : Bool) (address : Word) (state : (ℕ → Word) × δ) (i : ℕ) :
    (ℕ → Word) × δ :=
  if writing then (state.1, writeEntry bus address state.1 state.2 i)
  else readEntry bus address state i

def ended (s : System π δ) (p : π) (state : (ℕ → Word) × δ) : System π δ :=
  ⟨Function.update s.process p ⟨.waiting, state.1⟩, state.2⟩

variable {p : π} {writing : Bool} {address : Word}

private theorem both_accesses {s : System π δ} {length i : ℕ}
    (task : (s.process p).task = .select writing address length i) :
    run (step bus) [.access p, .access p] s =
      let state := entryAccess bus writing address ((s.process p).buffer, s.device) i
      some ⟨Function.update s.process p ⟨continued writing address length i, state.1⟩, state.2⟩ := by
  cases writing <;>
    simp [run, step, Process.access, task, entryAccess, readEntry, writeEntry]

private theorem loop_alone {s : System π δ} {k i : ℕ} (some_left : 0 < k)
    (task : (s.process p).task = .select writing address (i + k) i) :
    run (step bus) (List.replicate (2 * k) (.access p)) s =
      some (s.ended p ((List.range' i k).foldl (entryAccess bus writing address)
        ((s.process p).buffer, s.device))) := by
  induction k generalizing s i with
  | zero => exact absurd some_left (Nat.lt_irrefl 0)
  | succ k ih =>
    have split : List.replicate (2 * (k + 1)) (Label.access p) =
        [.access p, .access p] ++ List.replicate (2 * k) (.access p) := rfl
    rw [split, List.range'_succ, List.foldl_cons]
    apply run_append.mpr
    refine ⟨_, both_accesses task, ?_⟩
    generalize entryAccess bus writing address ((s.process p).buffer, s.device) i = state
    by_cases more : 0 < k
    · have next : continued writing address (i + (k + 1)) i = .select writing address (i + 1 + k) (i + 1) := by
        rw [continued, if_pos (by omega)]
        congr 1
        omega
      rw [next, ih (i := i + 1) more (by simp only [Function.update_self])]
      simp only [ended, Function.update_self, Function.update_idem]
    · obtain rfl : k = 0 := by omega
      rw [continued, if_neg (by omega)]
      rfl

/-- What `write_values` or `read_values` makes of the buffer and the board. -/
def values (bus : Bus δ) (writing : Bool) (address : Word) (length : ℕ) (state : (ℕ → Word) × δ) :
    (ℕ → Word) × δ :=
  if writing then (state.1, writeValues bus address state.1 length state.2)
  else readValues bus address length state

private theorem foldl_entry_access (indices : List ℕ) (state : (ℕ → Word) × δ) :
    indices.foldl (entryAccess bus writing address) state =
      if writing then (state.1, indices.foldl (writeEntry bus address state.1) state.2)
      else indices.foldl (readEntry bus address) state := by
  induction indices generalizing state with
  | nil => cases writing <;> rfl
  | cons i indices ih =>
    rw [List.foldl_cons, ih]
    cases writing <;> rfl

private theorem task_alone {s : System π δ} {length : ℕ}
    (task : (s.process p).task = loop writing address length) :
    ∃ n, run (step bus) (List.replicate n (.access p)) s =
      some (s.ended p (values bus writing address length ((s.process p).buffer, s.device))) := by
  by_cases many : 1 < length
  · rw [loop, if_pos many] at task
    refine ⟨2 * length, ?_⟩
    rw [loop_alone (i := 0) (by omega) (by rw [Nat.zero_add, task]), ← List.range_eq_range',
      foldl_entry_access, values, readValues, writeValues, if_pos many, if_pos many]
  · rw [loop, if_neg many] at task
    refine ⟨1, ?_⟩
    cases writing <;>
      simp [run, step, Process.access, task, ended, values, readValues, writeValues, many]

private theorem begun_alone {s : System π δ} {c : Command} {length : ℕ}
    (waiting : (s.process p).task = .waiting) (short : c.words ≤ maxLength)
    (takes : ((s.process p).begin c).task = loop writing address length) :
    ∃ n, run (step bus) (.begin p c :: List.replicate n (.access p)) s =
      some (s.ended p (values bus writing address length (((s.process p).begin c).buffer, s.device))) := by
  have task : ((s.begun p c).process p).task = loop writing address length := by
    rw [begun_self, takes]
  obtain ⟨n, path⟩ := task_alone task
  refine ⟨n, run_cons.mpr ⟨_, step_begin.mpr ⟨waiting, short, rfl⟩, path.trans ?_⟩⟩
  rw [begun_self]
  simp only [begun, ended, Function.update_idem]

/-- A command of a process that is alone is executed as by the server. -/
theorem command_alone {s : System π δ} (waiting : (s.process p).task = .waiting) (address : Word) :
    (∀ length ≤ maxLength, ∃ n,
      run (step bus) (.begin p (.read address length) :: List.replicate n (.access p)) s =
        some (s.ended p (readValues bus address length ((s.process p).buffer, s.device)))) ∧
    ∀ words : List Word, words.length ≤ maxLength → ∃ n,
      run (step bus) (.begin p (.write address words) :: List.replicate n (.access p)) s =
        some (s.ended p (fill (s.process p).buffer words,
          writeValues bus address (fill (s.process p).buffer words) words.length s.device)) := by
  constructor
  · intro length short
    exact begun_alone waiting (c := .read address length) short rfl
  · intro words short
    exact begun_alone waiting (c := .write address words) short rfl

end Alone

end System

end Pypga.Remote.ForkedAccess
