/- GID: Pypga/Core/DrawnGraph
   generality: G
   digest: What a drawing shows: the signals of all assignments, and an edge for each that is read. -/

import Mathlib.Data.Finset.Prod
import Pypga.Core.Visualisation

set_option autoImplicit false
set_option relaxedAutoImplicit false

namespace Pypga.Core.DrawnGraph

open Pypga.Foundation.Dictionary
open Pypga.Core.Visualisation

section Contents

variable {σ : Type}

mutual

def reads : Value σ → Set σ
  | .signal s => {s}
  | .constant _ => ∅
  | .operator _ operands => readsAll operands
  | .cat l => readsAll l
  | .slice value _ _ => reads value
  | .other _ parts => readsAll parts

def readsAll : List (Value σ) → Set σ
  | [] => ∅
  | v :: rest => reads v ∪ readsAll rest

end

structure Assignment (σ : Type) where
  guards : List (Value σ)
  l : Value σ
  r : Value σ

mutual

def statementAssignments : Statement σ → List (Value σ) → List (Assignment σ)
  | .assign l r, guards => [⟨guards, l, r⟩]
  | .ifElse cond t f, guards => assignments t (cond :: guards) ++ assignments f (cond :: guards)
  | .case test cases, guards => casesAssignments cases (test :: guards)
  | .other _, _ => []

def assignments : Block σ → List (Value σ) → List (Assignment σ)
  | .nil, _ => []
  | .cons s rest, guards => statementAssignments s guards ++ assignments rest guards

def casesAssignments : Cases σ → List (Value σ) → List (Assignment σ)
  | .nil, _ => []
  | .cons _ body rest, guards => assignments body guards ++ casesAssignments rest guards

end

/-- The signals that are assigned or read on a right side. -/
def shown (xs : List (Assignment σ)) : Set σ := {s | ∃ x ∈ xs, x.l = .signal s ∨ s ∈ reads x.r}

/-- The second signal is assigned from a value with the first one in it. -/
def flows (xs : List (Assignment σ)) : Set (σ × σ) :=
  {e | ∃ x ∈ xs, x.l = .signal e.2 ∧ e.1 ∈ reads x.r}

private theorem shown_append (xs ys : List (Assignment σ)) :
    shown (xs ++ ys) = shown xs ∪ shown ys := by
  ext s
  simp only [shown, List.mem_append, Set.mem_union, Set.mem_ofPred_eq, or_and_right, exists_or]

private theorem flows_append (xs ys : List (Assignment σ)) :
    flows (xs ++ ys) = flows xs ∪ flows ys := by
  ext e
  simp only [flows, List.mem_append, Set.mem_union, Set.mem_ofPred_eq, or_and_right, exists_or]

private theorem shown_single (guards : List (Value σ)) (t : σ) (r : Value σ) :
    shown [⟨guards, .signal t, r⟩] = {t} ∪ reads r := by
  ext s
  simp [shown, eq_comm]

private theorem flows_single (guards : List (Value σ)) (t : σ) (r : Value σ) :
    flows [⟨guards, .signal t, r⟩] = reads r ×ˢ {t} := by
  ext e
  simp only [flows, List.mem_singleton, exists_eq_left, Value.signal.injEq, Set.mem_prod,
    Set.mem_singleton_iff, Set.mem_ofPred_eq]
  constructor
  · rintro ⟨same, inside⟩
    exact ⟨inside, same.symm⟩
  · rintro ⟨inside, same⟩
    exact ⟨same.symm, inside⟩

variable (signals : Signals σ)

def Named (s : σ) : Prop := 2 ≤ (signals.backtrace s).length

def Target : Value σ → Prop
  | .signal s => Named signals s
  | _ => False

mutual

def DrawableValue : Value σ → Prop
  | .signal s => Named signals s
  | .constant _ => True
  | .operator _ operands => DrawableValues operands
  | .cat l => DrawableValues l
  | .slice value _ _ => Target signals value
  | .other _ _ => False

def DrawableValues : List (Value σ) → Prop
  | [] => True
  | v :: rest => DrawableValue v ∧ DrawableValues rest

end

mutual

def DrawableStatement : Statement σ → Prop
  | .assign l r => Target signals l ∧ DrawableValue signals r
  | .ifElse _ t f => Drawable t ∧ Drawable f
  | .case _ cases => DrawableCases cases
  | .other _ => False

def Drawable : Block σ → Prop
  | .nil => True
  | .cons s rest => DrawableStatement s ∧ Drawable rest

def DrawableCases : Cases σ → Prop
  | .nil => True
  | .cons _ body rest => Drawable body ∧ DrawableCases rest

end

end Contents

section Collecting

variable {σ : Type}

def node (signals : Signals σ) (s : σ) : Option Node :=
  (getName signals s).toOption.map fun name => ⟨name, signals.nbits s, signals.signed s⟩

private theorem get_name_iff (signals : Signals σ) (s : σ) :
    (∃ name, getName signals s = .ok name) ↔ Named signals s := by
  unfold getName Named
  rw [← List.length_reverse]
  match (signals.backtrace s).reverse with
  | [] => simp
  | [_] => simp
  | _ :: _ :: _ => simp

variable [DecidableEq σ]

structure Shows (signals : Signals σ) (c : Collected σ) (S : Set σ) (E : Set (σ × σ)) : Prop where
  unique : (c.1.map Prod.fst).Nodup
  node : ∀ s ∈ S, ∃ n, node signals s = some n ∧ c.1.lookup s = some n
  others : ∀ s ∉ S, c.1.lookup s = none
  edges : (c.2 : Set (σ × σ)) = E

structure Collects (signals : Signals σ) (x : Except PyError (Collected σ)) (able : Prop) (S : Set σ)
    (E : Set (σ × σ)) : Prop where
  shows : ∀ c, x = .ok c → able ∧ Shows signals c S E
  succeeds : able → ∃ c, x = .ok c

variable {signals : Signals σ}

private theorem shows_empty : Shows signals ([], ∅) ∅ ∅ :=
  ⟨List.nodup_nil, fun _ none => none.elim, fun _ _ => rfl, Finset.coe_empty⟩

private theorem Shows.join {a b : Collected σ} {S T : Set σ} {E F : Set (σ × σ)}
    (first : Shows signals a S E) (second : Shows signals b T F) :
    Shows signals (join a b) (S ∪ T) (E ∪ F) := by
  refine ⟨nodup_update first.unique b.1, ?_, ?_, ?_⟩
  · intro s either
    by_cases new : s ∈ T
    · obtain ⟨n, is, found⟩ := second.node s new
      refine ⟨n, is, ?_⟩
      rw [Visualisation.join, lookup_update second.unique, found]
      rfl
    · obtain ⟨n, is, found⟩ := first.node s (either.resolve_right new)
      refine ⟨n, is, ?_⟩
      rw [Visualisation.join, lookup_update second.unique, second.others s new, found]
      rfl
  · intro s neither
    obtain ⟨old, new⟩ := not_or.mp neither
    rw [Visualisation.join, lookup_update second.unique, second.others s new, first.others s old]
    rfl
  · rw [Visualisation.join, Finset.coe_union, first.edges, second.edges]

private theorem Shows.keys {c : Collected σ} {S : Set σ} {E : Set (σ × σ)}
    (shows : Shows signals c S E) :
    ((c.1.map Prod.fst).toFinset : Set σ) = S := by
  ext s
  rw [Finset.mem_coe, List.mem_toFinset, mem_keys_iff]
  constructor
  · rintro ⟨n, found⟩
    by_contra outside
    rw [shows.others s outside] at found
    cases found
  · intro inside
    obtain ⟨n, -, found⟩ := shows.node s inside
    exact ⟨n, found⟩

section Steps

variable {x : Except PyError (Collected σ)} {able more : Prop} {S T : Set σ} {E F : Set (σ × σ)}

private theorem Collects.error (e : PyError) : Collects signals (.error e) False S E :=
  ⟨fun _ ok => (nomatch ok), False.elim⟩

theorem Collects.ok {c : Collected σ} (shows : Shows signals c S E) :
    Collects signals (.ok c) True S E := by
  refine ⟨?_, fun _ => ⟨c, rfl⟩⟩
  rintro _ ⟨⟩
  exact ⟨trivial, shows⟩

private theorem Collects.bind {next : Collected σ → Except PyError (Collected σ)}
    (first : Collects signals x able S E)
    (later : ∀ c, Shows signals c S E → Collects signals (next c) more T F) :
    Collects signals (x >>= next) (able ∧ more) T F := by
  cases x with
  | error e =>
    refine ⟨fun _ ok => (nomatch ok), ?_⟩
    rintro ⟨can, -⟩
    obtain ⟨c, ok⟩ := first.succeeds can
    cases ok
  | ok c =>
    obtain ⟨can, shows⟩ := first.shows c rfl
    constructor
    · intro d ok
      obtain ⟨rest, shown⟩ := (later c shows).shows d ok
      exact ⟨⟨can, rest⟩, shown⟩
    · rintro ⟨-, rest⟩
      exact (later c shows).succeeds rest

theorem Collects.map {f : Collected σ → Collected σ} (first : Collects signals x able S E)
    (later : ∀ c, Shows signals c S E → Shows signals (f c) T F) :
    Collects signals (x >>= fun c => pure (f c)) able T F := by
  have ended : ∀ c, Shows signals c S E → Collects signals (pure (f c)) True T F :=
    fun c shows => Collects.ok (later c shows)
  have both := first.bind ended
  rwa [and_true] at both

end Steps

private theorem handle_signal (s : σ) :
    Collects signals (handleSignal signals s) (Named signals s) {s} ∅ := by
  constructor
  · intro c ok
    cases named : getName signals s with
    | error e =>
      rw [handleSignal, named] at ok
      cases ok
    | ok name =>
      rw [handleSignal, named] at ok
      cases ok
      refine ⟨(get_name_iff signals s).mp ⟨name, named⟩, List.nodup_singleton s, ?_, ?_,
        Finset.coe_empty⟩
      · rintro t rfl
        refine ⟨_, by rw [node, named]; rfl, ?_⟩
        rw [lookup_cons_eq, if_pos rfl]
      · intro t other
        have differ : t ≠ s := other
        rw [lookup_cons_eq, if_neg differ]
        rfl
  · intro named
    obtain ⟨name, named⟩ := (get_name_iff signals s).mpr named
    exact ⟨_, by rw [handleSignal, named]; rfl⟩

private theorem handle_slice (value : Value σ) (start stop : ℕ) :
    Collects signals (handleValue signals (.slice value start stop)) (Target signals value)
      (reads value) ∅ := by
  cases value with
  | signal s =>
    have kept : handleValue signals (.slice (.signal s) start stop) = handleSignal signals s := by
      rw [handleValue, handleTarget]
      cases handleSignal signals s <;> rfl
    rw [kept]
    exact handle_signal s
  | _ => exact Collects.error .attributeError

mutual

private theorem handle_value : ∀ v : Value σ,
    Collects signals (handleValue signals v) (DrawableValue signals v) (reads v) ∅
  | .signal s => handle_signal s
  | .constant _ => Collects.ok shows_empty
  | .operator _ operands => by
    have loop := handle_values operands shows_empty
    rwa [Set.empty_union] at loop
  | .cat l => by
    have loop := handle_values l shows_empty
    rwa [Set.empty_union] at loop
  | .slice value start stop => handle_slice value start stop
  | .other _ _ => Collects.error .keyError

private theorem handle_values : ∀ (vs : List (Value σ)) {c : Collected σ} {S : Set σ}
    {E : Set (σ × σ)},
    Shows signals c S E →
      Collects signals (handleValues signals vs c) (DrawableValues signals vs) (S ∪ readsAll vs) E
  | [], c, S, E, shows => by
    rw [readsAll, Set.union_empty]
    exact Collects.ok shows
  | v :: rest, c, S, E, shows => by
    rw [readsAll, ← Set.union_assoc]
    apply (handle_value v).bind
    intro next found
    have joined := shows.join found
    rw [Set.union_empty] at joined
    exact handle_values rest joined

end

theorem handle_assign (l r : Value σ) (guards : List (Value σ)) :
    Collects signals (handleAssign signals l r) (Target signals l ∧ DrawableValue signals r)
      (shown [⟨guards, l, r⟩]) (flows [⟨guards, l, r⟩]) := by
  cases l with
  | signal t =>
    rw [shown_single, flows_single]
    have kept : handleAssign signals (.signal t) r = (do
        let left ← handleSignal signals t
        let right ← handleValue signals r
        pure ((join (join ([], ∅) left) right).1, (join (join ([], ∅) left) right).2 ∪
          ((right.1.map Prod.fst).toFinset ×ˢ {t}))) := by
      rw [handleAssign, handleTarget]
      cases handleSignal signals t <;> rfl
    rw [kept]
    apply (handle_signal t).bind
    intro left first
    apply (handle_value r).map
    intro right second
    have joined := (shows_empty.join first).join second
    refine ⟨joined.unique, ?_, ?_, ?_⟩
    · rw [← Set.empty_union {t}]
      exact joined.node
    · rw [← Set.empty_union {t}]
      exact joined.others
    · rw [Finset.coe_union, joined.edges, Finset.coe_product, second.keys, Finset.coe_singleton]
      simp only [Set.empty_union]
  | _ =>
    refine ⟨fun c ok => ?_, fun both => both.1.elim⟩
    cases ok

mutual

private theorem handle_statement : ∀ (s : Statement σ) (guards : List (Value σ)),
    Collects signals (handleStatement signals s) (DrawableStatement signals s)
      (shown (statementAssignments s guards)) (flows (statementAssignments s guards))
  | .assign l r, guards => handle_assign l r guards
  | .ifElse cond t f, guards => by
    rw [statementAssignments, shown_append, flows_append]
    apply Collects.bind (S := shown (assignments t (cond :: guards)))
      (E := flows (assignments t (cond :: guards)))
    · have first := handle_block t (cond :: guards) shows_empty
      rwa [Set.empty_union, Set.empty_union] at first
    · intro c shows
      exact handle_block f (cond :: guards) shows
  | .case test cases, guards => by
    have loop := handle_cases cases (test :: guards) shows_empty
    rwa [Set.empty_union, Set.empty_union] at loop
  | .other _, _ => Collects.error .keyError

private theorem handle_block : ∀ (b : Block σ) (guards : List (Value σ)) {c : Collected σ}
    {S : Set σ}
    {E : Set (σ × σ)}, Shows signals c S E →
      Collects signals (handleBlock signals b c) (Drawable signals b)
        (S ∪ shown (assignments b guards)) (E ∪ flows (assignments b guards))
  | .nil, guards, c, S, E, shows => by
    have none : shown (assignments (σ := σ) .nil guards) = ∅ := by simp [shown, assignments]
    have still : flows (assignments (σ := σ) .nil guards) = ∅ := by simp [flows, assignments]
    rw [none, still, Set.union_empty, Set.union_empty]
    exact Collects.ok shows
  | .cons s rest, guards, c, S, E, shows => by
    rw [assignments, shown_append, flows_append, ← Set.union_assoc, ← Set.union_assoc]
    apply (handle_statement s guards).bind
    intro next found
    exact handle_block rest guards (shows.join found)

private theorem handle_cases : ∀ (cs : Cases σ) (guards : List (Value σ)) {c : Collected σ}
    {S : Set σ}
    {E : Set (σ × σ)}, Shows signals c S E →
      Collects signals (handleCases signals cs c) (DrawableCases signals cs)
        (S ∪ shown (casesAssignments cs guards)) (E ∪ flows (casesAssignments cs guards))
  | .nil, guards, c, S, E, shows => by
    have none : shown (casesAssignments (σ := σ) .nil guards) = ∅ := by
      simp [shown, casesAssignments]
    have still : flows (casesAssignments (σ := σ) .nil guards) = ∅ := by
      simp [flows, casesAssignments]
    rw [none, still, Set.union_empty, Set.union_empty]
    exact Collects.ok shows
  | .cons _ body rest, guards, c, S, E, shows => by
    rw [casesAssignments, shown_append, flows_append, ← Set.union_assoc, ← Set.union_assoc]
    apply (handle_block body guards shows).bind
    intro next found
    exact handle_cases rest guards found

end

end Collecting

section Drawing

variable {σ : Type} [DecidableEq σ] {signals : Signals σ} {sync comb : Block σ}

/-- The nodes `S` are drawn, with the edges `E` and `F`. -/
structure Draws (signals : Signals σ) (d : Drawing σ) (S : Set σ) (E F : Set (σ × σ)) : Prop where
  sync : Shows signals (d.nodes, d.syncEdges) S E
  comb : Shows signals (d.nodes, d.combEdges) S F

private theorem Shows.nodes {nodes : List (σ × Node)} {edges : Finset (σ × σ)} {S : Set σ}
    {E : Set (σ × σ)} (shows : Shows signals (nodes, edges) S E) (other : Finset (σ × σ)) :
    Shows signals (nodes, other) S (other : Set (σ × σ)) :=
  ⟨shows.unique, shows.node, shows.others, rfl⟩

private theorem pass_eq (d : Drawing σ) : pass signals sync comb d =
    (handleBlock signals sync (d.nodes, d.syncEdges)).bind fun c =>
      (handleBlock signals comb (c.1, d.combEdges)).bind fun c' => .ok ⟨c'.1, c.2, c'.2⟩ := rfl

variable (sync comb) in
private theorem pass_draws {d : Drawing σ} {S : Set σ} {E F : Set (σ × σ)}
    (draws : Draws signals d S E F) :
    (∀ d', pass signals sync comb d = .ok d' → (Drawable signals sync ∧ Drawable signals comb) ∧
      Draws signals d' (S ∪ shown (assignments sync []) ∪ shown (assignments comb []))
        (E ∪ flows (assignments sync [])) (F ∪ flows (assignments comb []))) ∧
    (Drawable signals sync ∧ Drawable signals comb → ∃ d', pass signals sync comb d = .ok d') := by
  have first := handle_block sync [] draws.sync
  rw [pass_eq]
  constructor
  · intro d' ok
    cases clocked : handleBlock signals sync (d.nodes, d.syncEdges) with
    | error e =>
      rw [clocked] at ok
      cases ok
    | ok c =>
      rw [clocked, Except.bind] at ok
      obtain ⟨able, shows⟩ := first.shows c clocked
      have wired : Shows signals (c.1, d.combEdges) (S ∪ shown (assignments sync [])) F := by
        rw [← draws.comb.edges]
        exact shows.nodes d.combEdges
      cases settled : handleBlock signals comb (c.1, d.combEdges) with
      | error e =>
        rw [settled] at ok
        cases ok
      | ok c' =>
        rw [settled] at ok
        cases ok
        obtain ⟨able', shows'⟩ := (handle_block comb [] wired).shows c' settled
        refine ⟨⟨able, able'⟩, ?_, shows'⟩
        rw [← shows.edges]
        exact shows'.nodes c.2
  · rintro ⟨able, able'⟩
    obtain ⟨c, clocked⟩ := first.succeeds able
    obtain ⟨-, shows⟩ := first.shows c clocked
    obtain ⟨c', settled⟩ := (handle_block comb [] (shows.nodes d.combEdges)).succeeds able'
    rw [clocked, Except.bind, settled]
    exact ⟨_, rfl⟩

structure Complete (signals : Signals σ) (sync comb : Block σ) (d : Drawing σ) : Prop where
  /-- A node for each signal that is assigned or read in an assignment. -/
  node_iff : ∀ s, (∃ n, d.nodes.lookup s = some n) ↔
    s ∈ shown (assignments sync []) ∪ shown (assignments comb [])
  described : ∀ s n, d.nodes.lookup s = some n → node signals s = some n
  /-- An edge for each signal that is read in an assignment, and no other one. -/
  sync_edge_iff : ∀ a b, (a, b) ∈ d.syncEdges ↔ (a, b) ∈ flows (assignments sync [])
  comb_edge_iff : ∀ a b, (a, b) ∈ d.combEdges ↔ (a, b) ∈ flows (assignments comb [])

theorem Draws.complete {d : Drawing σ} (draws : Draws signals d
    (shown (assignments sync []) ∪ shown (assignments comb [])) (flows (assignments sync []))
    (flows (assignments comb []))) : Complete signals sync comb d := by
  refine ⟨?_, ?_, ?_, ?_⟩
  · intro s
    rw [← draws.sync.keys, Finset.mem_coe, List.mem_toFinset, mem_keys_iff]
  · intro s n found
    by_cases inside : s ∈ shown (assignments sync []) ∪ shown (assignments comb [])
    · obtain ⟨m, is, there⟩ := draws.sync.node s inside
      rw [found] at there
      cases there
      exact is
    · rw [draws.sync.others s inside] at found
      cases found
  · intro a b
    rw [← draws.sync.edges, Finset.mem_coe]
  · intro a b
    rw [← draws.comb.edges, Finset.mem_coe]

variable (signals) in
/-- A module is drawn exactly if the file is a PDF and it has clocked statements, and all of its
assignments are to signals and of values with handlers. The drawing then has the signals of all
assignments, wherever they stand, and an edge for each signal that is read in one. -/
theorem vis_complete (fname : String) (fragment : Fragment σ) :
    ((∃ d, vis signals fname fragment = .ok d) ↔ extension fname = ".pdf" ∧
      ∃ sync, fragment.sync.lookup "sys" = some sync ∧ Drawable signals sync ∧
        Drawable signals fragment.comb) ∧
    ∀ d, vis signals fname fragment = .ok d → ∃ sync, fragment.sync.lookup "sys" = some sync ∧
      Complete signals sync fragment.comb d := by
  unfold vis
  by_cases file : extension fname = ".pdf"
  · rw [if_neg (not_not.mpr file)]
    cases there : fragment.sync.lookup "sys" with
    | none =>
      constructor
      · constructor
        · rintro ⟨d, ok⟩
          cases ok
        · rintro ⟨-, sync, found, -⟩
          cases found
      · rintro d ⟨⟩
    | some sync =>
      have blank : Draws signals (⟨[], ∅, ∅⟩ : Drawing σ) ∅ ∅ ∅ := ⟨shows_empty, shows_empty⟩
      have first := pass_draws sync fragment.comb blank
      dsimp only
      cases once : pass signals sync fragment.comb ⟨[], ∅, ∅⟩ with
      | error e =>
        constructor
        · constructor
          · rintro ⟨d, ok⟩
            cases ok
          · rintro ⟨-, _, ⟨⟩, able⟩
            obtain ⟨d, ok⟩ := first.2 able
            rw [once] at ok
            cases ok
        · rintro d ⟨⟩
      | ok d =>
        obtain ⟨able, draws⟩ := first.1 d once
        -- the second pass finds what the first one has found
        have second := pass_draws sync fragment.comb draws
        simp only [Set.empty_union] at second
        have again : shown (assignments sync []) ∪ shown (assignments fragment.comb []) ∪
            shown (assignments sync []) ∪ shown (assignments fragment.comb []) =
              shown (assignments sync []) ∪ shown (assignments fragment.comb []) := by
          rw [Set.union_assoc, Set.union_self]
        rw [again, Set.union_self, Set.union_self] at second
        constructor
        · exact ⟨fun _ => ⟨file, sync, rfl, able⟩, fun _ => second.2 able⟩
        · intro d' ok
          exact ⟨sync, rfl, (second.1 d' ok).2.complete⟩
  · rw [if_pos file]
    constructor
    · constructor
      · rintro ⟨d, ok⟩
        cases ok
      · rintro ⟨same, -⟩
        exact absurd same file
    · rintro d ⟨⟩

end Drawing

end Pypga.Core.DrawnGraph
