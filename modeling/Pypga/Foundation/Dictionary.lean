/- GID: Pypga/Foundation/Dictionary
   generality: G
   digest: Dictionaries in the order of their insertions: items, lookups and updates. -/

import Mathlib.Data.List.Nodup

set_option autoImplicit false
set_option relaxedAutoImplicit false

namespace Pypga.Foundation.Dictionary

variable {κ β : Type*} [DecidableEq κ]

def setItem : List (κ × β) → κ → β → List (κ × β)
  | [], k, v => [(k, v)]
  | a :: d, k, v => if a.1 = k then (k, v) :: d else a :: setItem d k v

/-- The items of `e` are set, one after the other. -/
def update (d e : List (κ × β)) : List (κ × β) := e.foldl (fun d a => setItem d a.1 a.2) d

theorem lookup_cons_eq (a : κ × β) (d : List (κ × β)) (x : κ) :
    (a :: d).lookup x = if x = a.1 then some a.2 else d.lookup x := by
  rw [List.lookup_cons]
  by_cases here : x = a.1
  · rw [if_pos here, beq_iff_eq.mpr here]
  · rw [if_neg here, beq_eq_false_iff_ne.mpr here]

theorem lookup_set_item (d : List (κ × β)) (k : κ) (v : β) (x : κ) :
    (setItem d k v).lookup x = if x = k then some v else d.lookup x := by
  induction d with
  | nil => rw [setItem, lookup_cons_eq]
  | cons a d ih =>
    unfold setItem
    split_ifs with same here here
    · rw [lookup_cons_eq, if_pos here]
    · rw [lookup_cons_eq, if_neg here, lookup_cons_eq, same, if_neg here]
    · have other : x ≠ a.1 := fun eq => same (eq.symm.trans here)
      rw [lookup_cons_eq, if_neg other, ih, if_pos here]
    · rw [lookup_cons_eq, ih, if_neg here, lookup_cons_eq]

theorem mem_keys_iff {d : List (κ × β)} {x : κ} : x ∈ d.map Prod.fst ↔ ∃ v, d.lookup x = some v := by
  induction d with
  | nil => simp
  | cons a d ih =>
    rw [List.map_cons, List.mem_cons, ih, lookup_cons_eq]
    split_ifs with here
    · exact iff_of_true (.inl here) ⟨a.2, rfl⟩
    · simp [here]

theorem mem_of_lookup {d : List (κ × β)} {x : κ} {v : β} (found : d.lookup x = some v) : (x, v) ∈ d := by
  induction d with
  | nil => cases found
  | cons a d ih =>
    rw [lookup_cons_eq] at found
    split_ifs at found with here
    · cases found
      rw [here]
      exact List.mem_cons_self
    · exact List.mem_cons_of_mem a (ih found)

theorem lookup_of_mem {d : List (κ × β)} (unique : (d.map Prod.fst).Nodup) {x : κ} {v : β}
    (member : (x, v) ∈ d) : d.lookup x = some v := by
  induction d with
  | nil => cases member
  | cons a d ih =>
    obtain ⟨fresh, rest⟩ := List.nodup_cons.mp unique
    rw [lookup_cons_eq]
    rcases List.mem_cons.mp member with rfl | later
    · rw [if_pos rfl]
    · have other : x ≠ a.1 := by
        rintro rfl
        exact fresh (List.mem_map.mpr ⟨_, later, rfl⟩)
      rw [if_neg other, ih rest later]

theorem lookup_map_values {γ : Type*} (f : β → γ) (d : List (κ × β)) (x : κ) :
    (d.map fun a => (a.1, f a.2)).lookup x = (d.lookup x).map f := by
  induction d with
  | nil => rfl
  | cons a d ih =>
    rw [List.map_cons, lookup_cons_eq, lookup_cons_eq, ih]
    split_ifs <;> rfl

private theorem keys_set_item (d : List (κ × β)) (k : κ) (v : β) (x : κ) :
    x ∈ (setItem d k v).map Prod.fst ↔ x = k ∨ x ∈ d.map Prod.fst := by
  rw [mem_keys_iff, mem_keys_iff, lookup_set_item]
  split_ifs with here
  · exact iff_of_true ⟨v, rfl⟩ (.inl here)
  · simp [here]

theorem nodup_set_item {d : List (κ × β)} (unique : (d.map Prod.fst).Nodup) (k : κ) (v : β) :
    ((setItem d k v).map Prod.fst).Nodup := by
  induction d with
  | nil => exact List.nodup_singleton k
  | cons a d ih =>
    obtain ⟨fresh, rest⟩ := List.nodup_cons.mp unique
    unfold setItem
    split_ifs with same
    · rw [List.map_cons, ← same]
      exact unique
    · rw [List.map_cons, List.nodup_cons, keys_set_item]
      exact ⟨not_or.mpr ⟨same, fresh⟩, ih rest⟩

/-- `del d[k]`, where the key is there; the order of the other ones stays. -/
def delItem (d : List (κ × β)) (k : κ) : List (κ × β) := d.filter fun a => a.1 ≠ k

theorem lookup_del_item (d : List (κ × β)) (k x : κ) :
    (delItem d k).lookup x = if x = k then none else d.lookup x := by
  induction d with
  | nil => simp [delItem]
  | cons a d ih =>
    unfold delItem at ih ⊢
    rw [List.filter_cons, lookup_cons_eq]
    by_cases same : a.1 = k
    · rw [if_neg (by simp [same]), ih, same]
      split_ifs with here
      · rfl
      · rfl
    · rw [if_pos (by simp [same]), lookup_cons_eq, ih]
      split_ifs with here there
      · exact absurd (here.symm.trans there) same
      · rfl
      · rfl
      · rfl

theorem keys_del_item (d : List (κ × β)) (k : κ) :
    (delItem d k).map Prod.fst = (d.map Prod.fst).filter fun x => x ≠ k := by
  rw [delItem, List.filter_map]
  rfl

theorem nodup_del_item {d : List (κ × β)} (unique : (d.map Prod.fst).Nodup) (k : κ) :
    ((delItem d k).map Prod.fst).Nodup := by
  rw [keys_del_item]
  exact unique.filter _

theorem lookup_update {e : List (κ × β)} (unique : (e.map Prod.fst).Nodup) (d : List (κ × β)) (x : κ) :
    (update d e).lookup x = (e.lookup x).or (d.lookup x) := by
  induction e generalizing d with
  | nil => rfl
  | cons a e ih =>
    obtain ⟨fresh, rest⟩ := List.nodup_cons.mp unique
    have split : update d (a :: e) = update (setItem d a.1 a.2) e := rfl
    rw [split, ih rest, lookup_set_item, lookup_cons_eq]
    split_ifs with here
    · have absent : e.lookup x = none := by
        by_contra present
        obtain ⟨v, found⟩ := Option.ne_none_iff_exists'.mp present
        exact fresh (here ▸ mem_keys_iff.mpr ⟨v, found⟩)
      rw [absent]
      rfl
    · rfl

theorem nodup_update {d : List (κ × β)} (unique : (d.map Prod.fst).Nodup) (e : List (κ × β)) :
    ((update d e).map Prod.fst).Nodup := by
  induction e generalizing d with
  | nil => exact unique
  | cons a e ih => exact ih (nodup_set_item unique a.1 a.2)

end Pypga.Foundation.Dictionary
