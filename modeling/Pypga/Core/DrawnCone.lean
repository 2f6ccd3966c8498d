/- GID: Pypga/Core/DrawnCone
   generality: G
   digest: The drawn edges against the meaning of the statements: with the conditions they bound every influence. -/

import Mathlib.Data.Fin.VecNotation
import Pypga.Core.DrawnGraph
import Pypga.Foundation.ConeOfInfluence

set_option autoImplicit false
set_option relaxedAutoImplicit false

namespace Pypga.Core.DrawnCone

open Pypga.Core.Visualisation
open Pypga.Core.DrawnGraph
open Pypga.Foundation.ConeOfInfluence

/-- What the words of the hardware are, and what is computed on them. An assignment cuts the value
down to its signal. -/
structure Meaning (σ β : Type) where
  constant : ℤ → β
  operator : String → List β → β
  cat : List β → β
  slice : β → ℕ → ℕ → β
  other : String → List β → β
  truth : β → Bool
  selects : β → ℤ → Bool
  store : σ → β → β
  reset : σ → β
  assignPart : Value σ → β → (σ → β) → σ → β

section Evaluation

variable {σ β : Type} (m : Meaning σ β)

mutual

def eval (old : σ → β) : Value σ → β
  | .signal s => old s
  | .constant value => m.constant value
  | .operator op operands => m.operator op (evalAll old operands)
  | .cat l => m.cat (evalAll old l)
  | .slice value start stop => m.slice (eval old value) start stop
  | .other kind parts => m.other kind (evalAll old parts)

def evalAll (old : σ → β) : List (Value σ) → List β
  | [] => []
  | v :: rest => eval old v :: evalAll old rest

end

variable {m}

mutual

private theorem eval_congr {v w : σ → β} :
    ∀ r : Value σ, (∀ s ∈ reads r, v s = w s) → eval m v r = eval m w r
  | .signal s, same => same s rfl
  | .constant _, _ => rfl
  | .operator op operands, same => congrArg (m.operator op) (eval_all_congr operands same)
  | .cat l, same => congrArg m.cat (eval_all_congr l same)
  | .slice value start stop, same => by
    rw [eval, eval, eval_congr value same]
  | .other kind parts, same => congrArg (m.other kind) (eval_all_congr parts same)

private theorem eval_all_congr {v w : σ → β} :
    ∀ rs : List (Value σ), (∀ s ∈ readsAll rs, v s = w s) →
    evalAll m v rs = evalAll m w rs
  | [], _ => rfl
  | r :: rest, same => by
    rw [evalAll, evalAll, eval_congr r fun s inside => same s (.inl inside),
      eval_all_congr rest fun s inside => same s (.inr inside)]

end

end Evaluation

section Contents

variable {σ : Type}

/-- The signals in the conditions around the assignments to a signal; no edge is drawn for them. -/
def conditions (xs : List (Assignment σ)) (b : σ) : Set σ :=
  {a | ∃ x ∈ xs, x.l = .signal b ∧ ∃ g ∈ x.guards, a ∈ reads g}

def Untouched (xs : List (Assignment σ)) (b : σ) : Prop := ∀ x ∈ xs, x.l ≠ .signal b

private theorem untouched_append {xs ys : List (Assignment σ)} {b : σ} :
    Untouched (xs ++ ys) b ↔ Untouched xs b ∧ Untouched ys b := List.forall_mem_append

mutual

private theorem statement_guards : ∀ (s : Statement σ) (guards : List (Value σ)),
    ∀ x ∈ statementAssignments s guards, guards ⊆ x.guards
  | .assign l r, guards, x, member => by
    obtain rfl := List.mem_singleton.mp member
    exact List.Subset.refl guards
  | .ifElse cond t f, guards, x, member => by
    rcases List.mem_append.mp member with first | second
    · exact List.Subset.trans (List.subset_cons_self _ _) (block_guards t _ x first)
    · exact List.Subset.trans (List.subset_cons_self _ _) (block_guards f _ x second)
  | .case test cases, guards, x, member =>
    List.Subset.trans (List.subset_cons_self _ _) (cases_guards cases _ x member)
  | .other _, _, _, member => nomatch member

private theorem block_guards : ∀ (k : Block σ) (guards : List (Value σ)),
    ∀ x ∈ assignments k guards, guards ⊆ x.guards
  | .nil, _, _, member => nomatch member
  | .cons s rest, guards, x, member => by
    rcases List.mem_append.mp member with first | later
    · exact statement_guards s guards x first
    · exact block_guards rest guards x later

private theorem cases_guards : ∀ (cs : Cases σ) (guards : List (Value σ)),
    ∀ x ∈ casesAssignments cs guards, guards ⊆ x.guards
  | .nil, _, _, member => nomatch member
  | .cons _ body rest, guards, x, member => by
    rcases List.mem_append.mp member with first | later
    · exact block_guards body guards x first
    · exact cases_guards rest guards x later

end

def Alike {β : Type} (xs : List (Assignment σ)) (b : σ) (v w : σ → β) : Prop :=
  ∀ x ∈ xs, x.l = .signal b →
    (∀ s ∈ reads x.r, v s = w s) ∧ ∀ g ∈ x.guards, ∀ s ∈ reads g, v s = w s

private theorem alike_append {β : Type} {xs ys : List (Assignment σ)} {b : σ} {v w : σ → β} :
    Alike (xs ++ ys) b v w ↔ Alike xs b v w ∧ Alike ys b v w := List.forall_mem_append

private theorem Alike.guard {β : Type} {m : Meaning σ β} {xs : List (Assignment σ)} {b : σ}
    {v w : σ → β}
    (alike : Alike xs b v w) {g : Value σ}
    (touched : ¬ Untouched xs b) (under : ∀ x ∈ xs, g ∈ x.guards) : eval m v g = eval m w g := by
  simp only [Untouched, not_forall, not_not] at touched
  obtain ⟨x, member, assigned⟩ := touched
  exact eval_congr g ((alike x member assigned).2 g (under x member))

end Contents

section Execution

variable {σ β : Type} [DecidableEq σ] (m : Meaning σ β)

def assign (l : Value σ) (value : β) (new : σ → β) : σ → β :=
  match l with
  | .signal s => Function.update new s (m.store s value)
  | _ => m.assignPart l value new

mutual

def execStatement (old : σ → β) : Statement σ → (σ → β) → σ → β
  | .assign l r, new => assign m l (eval m old r) new
  | .ifElse cond t f, new =>
    if m.truth (eval m old cond) then exec old t new else exec old f new
  | .case test cases, new =>
    (execKeyed old (eval m old test) cases new).getD (execDefault old cases new)
  | .other _, new => new

def exec (old : σ → β) : Block σ → (σ → β) → σ → β
  | .nil, new => new
  | .cons s rest, new => exec old rest (execStatement old s new)

def execKeyed (old : σ → β) (test : β) : Cases σ → (σ → β) → Option (σ → β)
  | .nil, _ => none
  | .cons none _ rest, new => execKeyed old test rest new
  | .cons (some key) body rest, new =>
    if m.selects test key then some (exec old body new) else execKeyed old test rest new

def execDefault (old : σ → β) : Cases σ → (σ → β) → σ → β
  | .nil, new => new
  | .cons none body _, new => exec old body new
  | .cons (some _) _ rest, new => execDefault old rest new

end

/-- A signal that is assigned in a clocked statement keeps its value otherwise, one that is assigned
in another statement is reset otherwise. -/
noncomputable def driver (sync comb : Block σ) (b : σ) : Driver σ β :=
  open Classical in
  if ∃ x ∈ assignments sync [], x.l = .signal b then .clocked fun old => exec m old sync old b
  else if ∃ x ∈ assignments comb [], x.l = .signal b then .wire fun old => exec m old comb m.reset b
  else .input

end Execution

section Influence

variable {σ β : Type} [DecidableEq σ] {m : Meaning σ β}

variable {signals : Signals σ} {b : σ}

mutual

private theorem exec_statement_frame {old new : σ → β} :
    ∀ (s : Statement σ) (guards : List (Value σ)),
    DrawableStatement signals s → Untouched (statementAssignments s guards) b →
      execStatement m old s new b = new b
  | .assign l r, guards, drawable, untouched => by
    have other : l ≠ .signal b := untouched _ List.mem_cons_self
    cases l with
    | signal t =>
      have differ : b ≠ t := fun same => other (congrArg Value.signal same.symm)
      exact Function.update_of_ne differ _ _
    | _ => exact drawable.1.elim
  | .ifElse cond t f, guards, drawable, untouched => by
    obtain ⟨first, second⟩ := untouched_append.mp untouched
    rw [execStatement]
    split
    · exact exec_frame t _ drawable.1 first
    · exact exec_frame f _ drawable.2 second
  | .case test cases, guards, drawable, untouched => by
    rw [execStatement]
    cases taken : execKeyed m old (eval m old test) cases new with
    | none => exact exec_default_frame cases _ drawable untouched
    | some after => exact exec_keyed_frame cases _ drawable untouched after taken
  | .other _, _, _, _ => rfl

private theorem exec_frame {old new : σ → β} : ∀ (k : Block σ) (guards : List (Value σ)),
    Drawable signals k → Untouched (assignments k guards) b → exec m old k new b = new b
  | .nil, _, _, _ => rfl
  | .cons s rest, guards, drawable, untouched => by
    obtain ⟨first, later⟩ := untouched_append.mp untouched
    rw [exec, exec_frame rest guards drawable.2 later, exec_statement_frame s guards drawable.1 first]

private theorem exec_keyed_frame {old new : σ → β} {test : β} :
    ∀ (cs : Cases σ) (guards : List (Value σ)),
    DrawableCases signals cs → Untouched (casesAssignments cs guards) b →
      ∀ after, execKeyed m old test cs new = some after → after b = new b
  | .nil, _, _, _, _, taken => nomatch taken
  | .cons none _ rest, guards, drawable, untouched, after, taken =>
    exec_keyed_frame rest guards drawable.2 (untouched_append.mp untouched).2 after taken
  | .cons (some key) body rest, guards, drawable, untouched, after, taken => by
    obtain ⟨first, later⟩ := untouched_append.mp untouched
    rw [execKeyed] at taken
    split at taken
    · cases taken
      exact exec_frame body guards drawable.1 first
    · exact exec_keyed_frame rest guards drawable.2 later after taken

private theorem exec_default_frame {old new : σ → β} : ∀ (cs : Cases σ) (guards : List (Value σ)),
    DrawableCases signals cs → Untouched (casesAssignments cs guards) b →
      execDefault m old cs new b = new b
  | .nil, _, _, _ => rfl
  | .cons none body _, guards, drawable, untouched =>
    exec_frame body guards drawable.1 (untouched_append.mp untouched).1
  | .cons (some _) _ rest, guards, drawable, untouched =>
    exec_default_frame rest guards drawable.2 (untouched_append.mp untouched).2

end

mutual

private theorem exec_statement_congr {v w new new' : σ → β} (same : new b = new' b) :
    ∀ (s : Statement σ) (guards : List (Value σ)), DrawableStatement signals s →
      Alike (statementAssignments s guards) b v w →
      execStatement m v s new b = execStatement m w s new' b
  | .assign l r, guards, drawable, alike => by
    cases l with
    | signal t =>
      by_cases here : t = b
      · subst here
        have equal := eval_congr (m := m) r (alike _ List.mem_cons_self rfl).1
        simp only [execStatement, assign, Function.update_self, equal]
      · have differ : b ≠ t := fun eq => here eq.symm
        simp only [execStatement, assign, Function.update_of_ne differ, same]
    | _ => exact drawable.1.elim
  | .ifElse cond t f, guards, drawable, alike => by
    by_cases untouched : Untouched (statementAssignments (.ifElse cond t f) guards) b
    · rw [exec_statement_frame _ guards drawable untouched,
        exec_statement_frame _ guards drawable untouched, same]
    · have under : ∀ x ∈ statementAssignments (.ifElse cond t f) guards, cond ∈ x.guards := by
        intro x member
        rcases List.mem_append.mp member with first | second
        · exact block_guards t _ x first List.mem_cons_self
        · exact block_guards f _ x second List.mem_cons_self
      obtain ⟨first, second⟩ := alike_append.mp alike
      rw [execStatement, execStatement, alike.guard untouched under]
      split
      · exact exec_congr same t _ drawable.1 first
      · exact exec_congr same f _ drawable.2 second
  | .case test cases, guards, drawable, alike => by
    by_cases untouched : Untouched (statementAssignments (.case test cases) guards) b
    · rw [exec_statement_frame _ guards drawable untouched,
        exec_statement_frame _ guards drawable untouched, same]
    · have under : ∀ x ∈ casesAssignments cases (test :: guards), test ∈ x.guards :=
        fun x member => cases_guards cases _ x member List.mem_cons_self
      have keyed := exec_keyed_congr same cases _ drawable alike (eval m w test)
      have default := exec_default_congr same cases _ drawable alike
      rw [execStatement, execStatement, alike.guard untouched under]
      cases first : execKeyed m v (eval m w test) cases new with
      | none =>
        cases second : execKeyed m w (eval m w test) cases new' with
        | none => exact default
        | some after => rw [first, second] at keyed; cases keyed
      | some after =>
        cases second : execKeyed m w (eval m w test) cases new' with
        | none => rw [first, second] at keyed; cases keyed
        | some after' =>
          rw [first, second] at keyed
          exact Option.some.inj keyed
  | .other _, _, _, _ => same

private theorem exec_congr {v w new new' : σ → β} (same : new b = new' b) :
    ∀ (k : Block σ) (guards : List (Value σ)), Drawable signals k →
      Alike (assignments k guards) b v w → exec m v k new b = exec m w k new' b
  | .nil, _, _, _ => same
  | .cons s rest, guards, drawable, alike => by
    obtain ⟨first, later⟩ := alike_append.mp alike
    have after := exec_statement_congr same s guards drawable.1 first
    exact exec_congr after rest guards drawable.2 later

private theorem exec_keyed_congr {v w new new' : σ → β} (same : new b = new' b) :
    ∀ (cs : Cases σ) (guards : List (Value σ)), DrawableCases signals cs →
      Alike (casesAssignments cs guards) b v w → ∀ test,
      (execKeyed m v test cs new).map (· b) = (execKeyed m w test cs new').map (· b)
  | .nil, _, _, _, _ => rfl
  | .cons none _ rest, guards, drawable, alike, test =>
    exec_keyed_congr same rest guards drawable.2 (alike_append.mp alike).2 test
  | .cons (some key) body rest, guards, drawable, alike, test => by
    obtain ⟨first, later⟩ := alike_append.mp alike
    rw [execKeyed, execKeyed]
    split
    · exact congrArg some (exec_congr same body guards drawable.1 first)
    · exact exec_keyed_congr same rest guards drawable.2 later test

private theorem exec_default_congr {v w new new' : σ → β} (same : new b = new' b) :
    ∀ (cs : Cases σ) (guards : List (Value σ)), DrawableCases signals cs →
      Alike (casesAssignments cs guards) b v w → execDefault m v cs new b = execDefault m w cs new' b
  | .nil, _, _, _ => same
  | .cons none body _, guards, drawable, alike =>
    exec_congr same body guards drawable.1 (alike_append.mp alike).1
  | .cons (some _) _ rest, guards, drawable, alike =>
    exec_default_congr same rest guards drawable.2 (alike_append.mp alike).2

end

end Influence

section Cone

variable {σ β : Type} [DecidableEq σ] {signals : Signals σ} {m : Meaning σ β} {sync comb : Block σ}

variable (sync comb) in
/-- The signals that are read for a signal: those drawn, and those of the conditions. A clocked
signal may be kept. -/
def influences (b : σ) : Set σ :=
  {a | (¬ Untouched (assignments sync []) b ∧ (a = b ∨ (a, b) ∈ flows (assignments sync []) ∨
      a ∈ conditions (assignments sync []) b)) ∨
    (Untouched (assignments sync []) b ∧ ((a, b) ∈ flows (assignments comb []) ∨
      a ∈ conditions (assignments comb []) b))}

omit [DecidableEq σ] in
private theorem alike_of_influences {xs : List (Assignment σ)} {b : σ} {v w : σ → β}
    (flowing : ∀ a, (a, b) ∈ flows xs → v a = w a) (deciding : ∀ a ∈ conditions xs b, v a = w a) :
    Alike xs b v w := by
  intro x member assigned
  refine ⟨fun s read => flowing s ⟨x, member, assigned, read⟩, ?_⟩
  intro g guard s read
  exact deciding s ⟨x, member, assigned, g, guard, read⟩

private theorem influences_feed (clocked : Drawable signals sync) (wired : Drawable signals comb) :
    Feeds (driver m sync comb) (influences sync comb) := by
  constructor
  · intro b f driven v w same
    unfold driver at driven
    split_ifs at driven with first second
    cases driven
    have untouched : Untouched (assignments sync []) b :=
      fun x member assigned => first ⟨x, member, assigned⟩
    apply exec_congr rfl comb [] wired
    apply alike_of_influences
    · exact fun a flowing => same a (.inr ⟨untouched, .inl flowing⟩)
    · exact fun a deciding => same a (.inr ⟨untouched, .inr deciding⟩)
  · intro b f driven v w same
    unfold driver at driven
    split_ifs at driven with first second
    cases driven
    have touched : ¬ Untouched (assignments sync []) b := by
      obtain ⟨x, member, assigned⟩ := first
      exact fun none => none x member assigned
    apply exec_congr (same b (.inl ⟨touched, .inl rfl⟩)) sync [] clocked
    apply alike_of_influences
    · exact fun a flowing => same a (.inl ⟨touched, .inr (.inl flowing)⟩)
    · exact fun a deciding => same a (.inl ⟨touched, .inr (.inr deciding)⟩)

variable (sync comb) in
/-- With a signal of the set, it has all signals with an edge to it, and all that are in the
conditions around its assignments, which have no edge. -/
structure Closed (d : Drawing σ) (C : Set σ) : Prop where
  edges : ∀ a b, (a, b) ∈ d.syncEdges ∨ (a, b) ∈ d.combEdges → b ∈ C → a ∈ C
  conditions : ∀ b ∈ C, conditions (assignments sync []) b ⊆ C ∧ conditions (assignments comb []) b ⊆ C

variable (m) in
/-- The drawing bounds every influence: take a set of signals with all that have an edge into it, and
with the signals in the conditions, that has no combinational loop (`Settles`). Two runs of the module
that start alike in the set and have the same inputs there are the same there for ever, whatever
happens outside of it. -/
theorem drawn_cone {fname : String} {fragment : Fragment σ} {d : Drawing σ}
    (drawn : vis signals fname fragment = .ok d) (found : fragment.sync.lookup "sys" = some sync)
    {C : Set σ} (closed : Closed sync fragment.comb d C)
    (settles : Settles (driver m sync fragment.comb) (influences sync fragment.comb) C)
    {v w : ℕ → σ → β} (first : Trace (driver m sync fragment.comb) v)
    (second : Trace (driver m sync fragment.comb) w)
    (start : ∀ b ∈ C, ∀ f, driver m sync fragment.comb b = .clocked f → v 0 b = w 0 b)
    (inputs : ∀ k, ∀ b ∈ C, driver m sync fragment.comb b = .input → v k b = w k b) :
    ∀ k, ∀ b ∈ C, v k b = w k b := by
  obtain ⟨able, complete⟩ := vis_complete signals fname fragment
  obtain ⟨-, other, there, clocked, wired⟩ := able.mp ⟨d, drawn⟩
  obtain ⟨same, there', shown⟩ := complete d drawn
  cases found.symm.trans there
  cases found.symm.trans there'
  refine cone_agree (influences_feed clocked wired) ?_ settles first second start inputs
  intro b inside a influence
  obtain ⟨inClocked, inWired⟩ := closed.conditions b inside
  rcases influence with ⟨-, rfl | flowing | deciding⟩ | ⟨-, flowing | deciding⟩
  · exact inside
  · exact closed.edges a b (.inl ((shown.sync_edge_iff a b).mpr flowing)) inside
  · exact inClocked deciding
  · exact closed.edges a b (.inr ((shown.comb_edge_iff a b).mpr flowing)) inside
  · exact inWired deciding

end Cone

section Gated

/-- The signals `a`, `b`, `sel` and `c` of a module. -/
def gatedSignals : Signals (Fin 4) where
  backtrace s := ["automigenmodule", (["a", "b", "sel", "c"] : List String).getD s ""]
  nbits _ := 8
  signed _ := false

/-- `If(sel, b.eq(a))`. -/
def gatedSync : Block (Fin 4) :=
  .cons (.ifElse (.signal 2) (.cons (.assign (.signal 1) (.signal 0)) .nil) .nil) .nil

/-- `c.eq(a)`. -/
def gatedComb : Block (Fin 4) := .cons (.assign (.signal 3) (.signal 0)) .nil

def gated : Fragment (Fin 4) := ⟨[("sys", gatedSync)], gatedComb⟩

def integers : Meaning (Fin 4) ℤ where
  constant := id
  operator _ values := values.headD 0
  cat values := values.headD 0
  slice v _ _ := v
  other _ values := values.headD 0
  truth v := v ≠ 0
  selects v key := v = key
  store _ v := v
  reset _ := 0
  assignPart _ _ new := new

private theorem driver_gated : driver integers gatedSync gatedComb 0 = .input ∧
    driver integers gatedSync gatedComb 1 = .clocked (fun old => exec integers old gatedSync old 1) ∧
    driver integers gatedSync gatedComb 2 = .input ∧
    driver integers gatedSync gatedComb 3 =
      .wire (fun old => exec integers old gatedComb integers.reset 3) := by
  simp [driver, gatedSync, gatedComb, assignments, statementAssignments]

private theorem gated_all : ∀ s : Fin 4, s = 0 ∨ s = 1 ∨ s = 2 ∨ s = 3 := by decide

private theorem trace_gated {v : ℕ → Fin 4 → ℤ}
    (b : ∀ k, v (k + 1) 1 = if v k 2 = 0 then v k 1 else v k 0) (c : ∀ k, v k 3 = v k 0) : Trace (driver integers gatedSync gatedComb) v := by
  obtain ⟨first, second, third, fourth⟩ := driver_gated
  constructor
  · intro k s f driven
    rcases gated_all s with rfl | rfl | rfl | rfl
    · rw [first] at driven; cases driven
    · rw [second] at driven; cases driven
    · rw [third] at driven; cases driven
    · rw [fourth] at driven
      cases driven
      rw [c]
      simp [gatedComb, exec, execStatement, eval, assign, integers]
  · intro k s f driven
    rcases gated_all s with rfl | rfl | rfl | rfl
    · rw [first] at driven; cases driven
    · rw [second] at driven
      cases driven
      rw [b]
      by_cases off : v k 2 = 0 <;>
        simp [gatedSync, exec, execStatement, eval, assign, integers, off]
    · rw [third] at driven; cases driven
    · rw [fourth] at driven; cases driven

private theorem gated_drawn : ∃ d, vis gatedSignals "gated.pdf" gated = .ok d ∧
    d.syncEdges = {(0, 1)} ∧ d.combEdges = {(0, 3)} := ⟨_, rfl, by decide, by decide⟩

private theorem gated_unconditioned {C : Set (Fin 4)} :
    conditions (assignments gatedSync []) 0 ⊆ C ∧ conditions (assignments gatedComb []) 0 ⊆ C ∧
      conditions (assignments gatedSync []) 3 ⊆ C ∧ conditions (assignments gatedComb []) 3 ⊆ C := by
  simp [conditions, gatedSync, gatedComb, assignments, statementAssignments]

private theorem gated_settles (C : Set (Fin 4)) :
    Settles (driver integers gatedSync gatedComb) (influences gatedSync gatedComb) C := by
  obtain ⟨first, second, third, -⟩ := driver_gated
  have wired : ∀ s f, driver integers gatedSync gatedComb s = .wire f → s = 3 := by
    intro s f wire
    rcases gated_all s with rfl | rfl | rfl | rfl
    · rw [first] at wire; cases wire
    · rw [second] at wire; cases wire
    · rw [third] at wire; cases wire
    · rfl
  refine ⟨fun _ => 0, ?_⟩
  intro b _ f wire a feeding g wire'
  obtain rfl := wired b f wire
  obtain rfl := wired a g wire'
  exfalso
  simp [influences, Untouched, flows, conditions, gatedSync, gatedComb, assignments,
    statementAssignments, reads] at feeding

/-- The signal `b` starts with `x`. -/
def started (x : ℤ) : ℕ → Fin 4 → ℤ
  | 0 => ![7, x, 1, 7]
  | _ => ![7, 7, 1, 7]

private theorem trace_started (x : ℤ) :
    Trace (driver integers gatedSync gatedComb) (started x) := by
  apply trace_gated
  · intro k
    match k with
    | 0 | _ + 1 => rfl
  · intro k
    match k with
    | 0 | _ + 1 => rfl

theorem drawn_cone_gated : started 0 0 1 ≠ started 5 0 1 ∧
    ∀ k, ∀ b ∈ ({0, 3} : Set (Fin 4)), started 0 k b = started 5 k b := by
  refine ⟨by decide, ?_⟩
  obtain ⟨d, drawn, sync, comb⟩ := gated_drawn
  refine drawn_cone integers drawn rfl ⟨?_, ?_⟩ (gated_settles _) (trace_started 0) (trace_started 5) ?_ ?_
  · rw [sync, comb]
    rintro a b (edge | edge) inside
    · exact .inl (Prod.mk.inj (Finset.mem_singleton.mp edge)).1
    · exact .inl (Prod.mk.inj (Finset.mem_singleton.mp edge)).1
  · rintro b (rfl | rfl)
    · exact ⟨gated_unconditioned.1, gated_unconditioned.2.1⟩
    · exact ⟨gated_unconditioned.2.2.1, gated_unconditioned.2.2.2⟩
  · rintro b (rfl | rfl) f _
    · rfl
    · rfl
  · rintro k b (rfl | rfl) _
    · match k with
      | 0 | _ + 1 => rfl
    · match k with
      | 0 | _ + 1 => rfl

/-- There is no edge from `sel` to `b`, and yet `b` follows it. -/
theorem gated_condition : ∃ v w : ℕ → Fin 4 → ℤ, Trace (driver integers gatedSync gatedComb) v ∧
    Trace (driver integers gatedSync gatedComb) w ∧ (∀ k, v k 0 = w k 0) ∧ v 0 1 = w 0 1 ∧
    v 1 1 ≠ w 1 1 := by
  refine ⟨started 0, fun _ => ![7, 0, 0, 7], trace_started 0, ?_, ?_, rfl, by decide⟩
  · exact trace_gated (fun _ => rfl) fun _ => rfl
  · intro k
    match k with
    | 0 | _ + 1 => rfl

end Gated

end Pypga.Core.DrawnCone
