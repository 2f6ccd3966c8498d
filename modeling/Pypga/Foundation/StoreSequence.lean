/- GID: Pypga/Foundation/StoreSequence
   generality: G
   digest: Cells after a sequence of stores: the last store of a cell counts. -/

import Mathlib.Data.Nat.Notation
import Mathlib.Logic.Function.Basic

set_option autoImplicit false
set_option relaxedAutoImplicit false

namespace Pypga.Foundation.StoreSequence

variable {κ β : Type*} [DecidableEq κ]

/-- The stores of a log, the first one first. -/
def storeAll (log : List (κ × β)) (cells : κ → β) : κ → β :=
  log.foldl (fun m s => Function.update m s.1 s.2) cells

@[simp] theorem store_all_nil (cells : κ → β) : storeAll [] cells = cells := rfl

theorem store_all_cons (s : κ × β) (log : List (κ × β)) (cells : κ → β) :
    storeAll (s :: log) cells = storeAll log (Function.update cells s.1 s.2) := rfl

theorem store_all_append (log more : List (κ × β)) (cells : κ → β) :
    storeAll (log ++ more) cells = storeAll more (storeAll log cells) := List.foldl_append

def lastStore (log : List (κ × β)) (x : κ) : Option β :=
  (log.reverse.find? fun s => s.1 = x).map Prod.snd

theorem last_store_append (log more : List (κ × β)) (x : κ) :
    lastStore (log ++ more) x = (lastStore more x).or (lastStore log x) := by
  simp [lastStore, List.find?_append, Option.map_or]

theorem store_all_eq (log : List (κ × β)) (cells : κ → β) (x : κ) :
    storeAll log cells x = (lastStore log x).getD (cells x) := by
  induction log generalizing cells with
  | nil => rfl
  | cons s log ih =>
    have split : s :: log = [s] ++ log := rfl
    rw [store_all_cons, ih, split, last_store_append]
    cases lastStore log x with
    | some v => rfl
    | none =>
      by_cases here : s.1 = x
      · subst here
        simp [lastStore]
      · have other : x ≠ s.1 := fun same => here same.symm
        simp [lastStore, here, Function.update_of_ne other]

theorem last_store_of_mem {log : List (κ × β)} {x : κ} {v : β} (member : (x, v) ∈ log)
    (unique : ∀ s ∈ log, s.1 = x → s.2 = v) : lastStore log x = some v := by
  unfold lastStore
  cases found : log.reverse.find? fun s => s.1 = x with
  | none =>
    have absent := List.find?_eq_none.mp found (x, v) (List.mem_reverse.mpr member)
    simp at absent
  | some s =>
    have here : s.1 = x := by simpa using List.find?_some found
    have inside := List.mem_reverse.mp (List.mem_of_find?_eq_some found)
    rw [Option.map_some, unique s inside here]

theorem last_store_of_getElem {log : List (κ × β)} {x : κ} {v : β} {k : ℕ}
    (stored : log[k]? = some (x, v)) (later : ∀ j s, k < j → log[j]? = some s → s.1 ≠ x) :
    lastStore log x = some v := by
  have rest : lastStore (log.drop k) x = some v := by
    apply last_store_of_mem
    · apply List.mem_of_getElem? (i := 0)
      rw [List.getElem?_drop, Nat.add_zero, stored]
    · intro s member here
      obtain ⟨j, is⟩ := List.getElem?_of_mem member
      rw [List.getElem?_drop] at is
      rcases Nat.eq_zero_or_pos j with rfl | positive
      · rw [Nat.add_zero, stored] at is
        rw [← Option.some.inj is]
      · exact absurd here (later (k + j) s (by omega) is)
  rw [← List.take_append_drop k log, last_store_append, rest]
  rfl

theorem last_store_eq_none {log : List (κ × β)} {x : κ} (absent : ∀ s ∈ log, s.1 ≠ x) :
    lastStore log x = none := by
  have nothing : (log.reverse.find? fun s => s.1 = x) = none := by
    apply List.find?_eq_none.mpr
    intro s member
    simpa using absent s (List.mem_reverse.mp member)
  rw [lastStore, nothing]
  rfl

end Pypga.Foundation.StoreSequence
