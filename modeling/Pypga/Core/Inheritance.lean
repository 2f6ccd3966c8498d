/- GID: Pypga/Core/Inheritance
   generality: G
   digest: In a chain of module classes the oldest annotation of a register wins. -/

import Pypga.Core.ModuleClasses
import Pypga.Core.Registers

set_option autoImplicit false
set_option relaxedAutoImplicit false

namespace Pypga.Core.Inheritance

open Pypga.Foundation.Dictionary
open Pypga.Core.ModuleClasses
open Pypga.Core.Registers (NumberRegister)

variable {κ : Type*}

private theorem bind_eq_ok {ε α β : Type*} {x : Except ε α} {f : α → Except ε β} {b : β} :
    x.bind f = .ok b ↔ ∃ a, x = .ok a ∧ f a = .ok b := by
  cases x with
  | error e => exact iff_of_false (fun same => nomatch same) (fun ⟨_, same, _⟩ => nomatch same)
  | ok a =>
    constructor
    · exact fun same => ⟨a, rfl, same⟩
    · rintro ⟨a, first, rest⟩
      cases first
      exact rest

/-- The annotation of the most derived class that has one; the classes come from that one on. -/
def mostDerived : List (Body κ) → String → Option (RegisterClass κ)
  | [], _ => none
  | body :: bases, name => (body.annotations.lookup name).or (mostDerived bases name)

/-- The annotation of the class that was the first to have one. -/
def oldest : List (Body κ) → String → Option (RegisterClass κ)
  | [], _ => none
  | body :: bases, name => (oldest bases name).or (body.annotations.lookup name)

private theorem lookup_type_hints (chain : List (Body κ)) (name : String) :
    (getTypeHints chain).lookup name = mostDerived chain name := by
  induction chain with
  | nil => rfl
  | cons body bases ih => rw [getTypeHints, lookup_update body.unique, ih, mostDerived]

private theorem nodup_type_hints (chain : List (Body κ)) :
    ((getTypeHints chain).map Prod.fst).Nodup := by
  induction chain with
  | nil => exact List.nodup_nil
  | cons body bases ih => exact nodup_update ih body.annotations

private theorem lookup_attribute_cons (own : List (String × Descriptor κ))
    (bases : List (List (String × Descriptor κ))) (name : String) :
    lookupAttribute (own :: bases) name = (own.lookup name).or (lookupAttribute bases name) := by
  rw [lookupAttribute, List.findSome?_cons]
  cases own.lookup name <;> rfl

private theorem mem_dir {namespaces : List (List (String × Descriptor κ))} {name : String} :
    name ∈ dir namespaces ↔ ∃ d, lookupAttribute namespaces name = some d := by
  rw [dir, List.mem_mergeSort, List.mem_dedup]
  induction namespaces with
  | nil => simp [lookupAttribute]
  | cons own bases ih =>
    rw [List.flatMap_cons, List.mem_append, ih, mem_keys_iff, lookup_attribute_cons]
    cases own.lookup name <;> simp

section Scan

variable {others : String → Bool} {namespaces : List (List (String × Descriptor κ))}

private theorem getattr_some {name : String} {d : Descriptor κ}
    (found : lookupAttribute namespaces name = some d) :
    getattr others namespaces name =
      if d.registerClass.kind = .triggerRegister then .error .attributeError else .ok (some d) := by
  rw [getattr, found]
  simp only [Descriptor.getOnClass]
  split_ifs with trigger
  · rw [trigger]
    rfl
  · cases kind : d.registerClass.kind <;> first | rfl | exact absurd kind trigger

private theorem getattr_none {name : String} (absent : lookupAttribute namespaces name = none) :
    getattr others namespaces name =
      if taken others name then .ok none else .error .attributeError := by
  rw [getattr, absent]

private theorem scan_name_some {name : String} {d : Descriptor κ}
    (found : lookupAttribute namespaces name = some d) (registers : List (String × Entry κ)) :
    scanName others namespaces registers name =
      if d.registerClass.kind = .triggerRegister then .error .attributeError
      else .ok (setItem registers name (.instance d)) := by
  rw [scanName, getattr_some found]
  split_ifs <;> rfl

private theorem scan_names (names : List String) (registers : List (String × Entry κ))
    (known : ∀ name ∈ names, ∃ d, lookupAttribute namespaces name = some d ∧
      d.registerClass.kind ≠ .triggerRegister)
    (unique : (registers.map Prod.fst).Nodup) :
    ∃ scanned, names.foldlM (scanName others namespaces) registers = .ok scanned ∧
      (scanned.map Prod.fst).Nodup ∧
      ∀ x, scanned.lookup x =
        if x ∈ names then (lookupAttribute namespaces x).map .instance else registers.lookup x := by
  induction names generalizing registers with
  | nil => exact ⟨registers, rfl, unique, fun x => (if_neg List.not_mem_nil).symm⟩
  | cons name names ih =>
    obtain ⟨d, found, silent⟩ := known name List.mem_cons_self
    obtain ⟨scanned, path, keys, values⟩ := ih (setItem registers name (.instance d))
      (fun other member => known other (List.mem_cons_of_mem name member))
      (nodup_set_item unique name _)
    refine ⟨scanned, ?_, keys, ?_⟩
    · rw [List.foldlM_cons, scan_name_some found, if_neg silent]
      exact path
    · intro x
      rw [values x, lookup_set_item]
      by_cases later : x ∈ names
      · rw [if_pos later, if_pos (List.mem_cons_of_mem name later)]
      · rw [if_neg later]
        by_cases here : x = name
        · rw [if_pos here, if_pos (here ▸ List.mem_cons_self), here, found]
          rfl
        · rw [if_neg here, if_neg (fun member => (List.mem_cons.mp member).elim here later)]

private theorem silent_of_scan {names : List String} {registers scanned : List (String × Entry κ)}
    (path : names.foldlM (scanName others namespaces) registers = .ok scanned) :
    ∀ name ∈ names, ∀ d, lookupAttribute namespaces name = some d →
      d.registerClass.kind ≠ .triggerRegister := by
  induction names generalizing registers with
  | nil => exact fun name member => absurd member List.not_mem_nil
  | cons first names ih =>
    intro name member d found
    obtain ⟨next, here, rest⟩ := bind_eq_ok.mp path
    rcases List.mem_cons.mp member with rfl | later
    · intro trigger
      rw [scan_name_some found, if_pos trigger] at here
      cases here
    · exact ih rest name later d found

variable (others) in
private theorem scan_silent {hints : List (String × RegisterClass κ)}
    (unique : (hints.map Prod.fst).Nodup)
    (silent : ∀ name d, lookupAttribute namespaces name = some d →
      d.registerClass.kind ≠ .triggerRegister) :
    ∃ items, scanModuleClass others namespaces hints = .ok items ∧ (items.map Prod.fst).Nodup ∧
      ∀ x, items.lookup x =
        ((lookupAttribute namespaces x).map .instance).or ((hints.lookup x).map .type) := by
  have keys : ((hints.map fun a => (a.1, Entry.type a.2)).map Prod.fst).Nodup := by
    rw [List.map_map]
    exact unique
  have known : ∀ name ∈ dir namespaces, ∃ d, lookupAttribute namespaces name = some d ∧
      d.registerClass.kind ≠ .triggerRegister := by
    intro name member
    obtain ⟨d, found⟩ := mem_dir.mp member
    exact ⟨d, found, silent name d found⟩
  obtain ⟨items, path, unique, values⟩ := scan_names (dir namespaces) _ known keys
  refine ⟨items, path, unique, ?_⟩
  intro x
  rw [values x, lookup_map_values]
  by_cases member : x ∈ dir namespaces
  · obtain ⟨d, found⟩ := mem_dir.mp member
    rw [if_pos member, found]
    rfl
  · have absent : lookupAttribute namespaces x = none := by
      by_contra present
      exact member (mem_dir.mpr (Option.ne_none_iff_exists'.mp present))
    rw [if_neg member, absent]
    rfl

private theorem scan_ok_iff {hints : List (String × RegisterClass κ)}
    (unique : (hints.map Prod.fst).Nodup) :
    (∃ items, scanModuleClass others namespaces hints = .ok items) ↔
      ∀ name d, lookupAttribute namespaces name = some d → d.registerClass.kind ≠ .triggerRegister := by
  constructor
  · rintro ⟨items, path⟩ name d found
    exact silent_of_scan path name (mem_dir.mpr ⟨d, found⟩) d found
  · intro silent
    obtain ⟨items, path, -⟩ := scan_silent others unique silent
    exact ⟨items, path⟩

end Scan

section Loop

variable {others : String → Bool} {bases : List (List (String × Descriptor κ))}

private theorem lookup_attribute_fresh {own : List (String × Descriptor κ)} {name : String}
    (fresh : own.lookup name = none) :
    lookupAttribute (own :: bases) name = lookupAttribute bases name := by
  rw [lookup_attribute_cons, fresh]
  rfl

private theorem instantiate_known {own : List (String × Descriptor κ)} {name : String}
    (entry : Entry κ)
    {d : Descriptor κ} (fresh : own.lookup name = none) (found : lookupAttribute bases name = some d)
    (silent : d.registerClass.kind ≠ .triggerRegister) (named : d.name = name) :
    instantiate others bases own (name, entry) = .ok own := by
  unfold instantiate
  rw [getattr_some ((lookup_attribute_fresh fresh).trans found), if_neg silent]
  exact if_pos named

private theorem instantiate_new {own : List (String × Descriptor κ)} {name : String}
    (c : RegisterClass κ)
    (fresh : own.lookup name = none) (absent : lookupAttribute bases name = none) :
    instantiate others bases own (name, .type c) =
      if taken others name then .error .assertionError else .ok (setItem own name ⟨c, name⟩) := by
  unfold instantiate
  rw [getattr_none ((lookup_attribute_fresh fresh).trans absent)]
  cases taken others name <;> rfl

structure Scanned (bases : List (List (String × Descriptor κ))) (items : List (String × Entry κ)) :
    Prop where
  named : ∀ name d, lookupAttribute bases name = some d → d.name = name
  silent : ∀ name d, lookupAttribute bases name = some d → d.registerClass.kind ≠ .triggerRegister
  unique : (items.map Prod.fst).Nodup
  fresh : ∀ a ∈ items, lookupAttribute bases a.1 = none → ∃ c, a.2 = .type c

private theorem Scanned.tail {a : String × Entry κ} {items : List (String × Entry κ)}
    (scanned : Scanned bases (a :: items)) : Scanned bases items where
  named := scanned.named
  silent := scanned.silent
  unique := (List.nodup_cons.mp scanned.unique).2
  fresh b member := scanned.fresh b (List.mem_cons_of_mem a member)

private theorem instantiate_ok_iff {own next : List (String × Descriptor κ)} {a : String × Entry κ}
    {items : List (String × Entry κ)} (scanned : Scanned bases (a :: items))
    (fresh : own.lookup a.1 = none) :
    instantiate others bases own a = .ok next ↔
      if lookupAttribute bases a.1 = none then
        taken others a.1 = false ∧ next = setItem own a.1 ⟨a.2.registerClass, a.1⟩
      else next = own := by
  obtain ⟨name, entry⟩ := a
  cases found : lookupAttribute bases name with
  | some d =>
    rw [instantiate_known entry fresh found (scanned.silent name d found) (scanned.named name d found),
      if_neg (Option.some_ne_none d)]
    constructor
    · intro same
      cases same
      rfl
    · rintro rfl
      rfl
  | none =>
    obtain ⟨c, rfl⟩ := scanned.fresh _ List.mem_cons_self found
    rw [instantiate_new c fresh found, if_pos rfl]
    cases taken others name with
    | true => simp
    | false =>
      simp only [Bool.false_eq_true, if_false, true_and, Except.ok.injEq]
      exact eq_comm

private theorem Scanned.fresh_tail {own next : List (String × Descriptor κ)} {a : String × Entry κ}
    {items : List (String × Entry κ)} (scanned : Scanned bases (a :: items))
    (fresh : ∀ b ∈ a :: items, own.lookup b.1 = none) (first : instantiate others bases own a = .ok next) :
    ∀ b ∈ items, next.lookup b.1 = none := by
  intro b member
  have before := fresh b (List.mem_cons_of_mem a member)
  have result := (instantiate_ok_iff scanned (fresh a List.mem_cons_self)).mp first
  split_ifs at result
  · have other : b.1 ≠ a.1 := fun same =>
      (List.nodup_cons.mp scanned.unique).1 (same ▸ List.mem_map_of_mem member)
    rw [result.2, lookup_set_item, if_neg other, before]
  · rw [result, before]

private theorem instantiate_all_iff {items : List (String × Entry κ)}
    (scanned : Scanned bases items)
    {own : List (String × Descriptor κ)} (fresh : ∀ a ∈ items, own.lookup a.1 = none) :
    (∃ final, items.foldlM (instantiate others bases) own = .ok final) ↔
      ∀ a ∈ items, lookupAttribute bases a.1 = none → taken others a.1 = false := by
  induction items generalizing own with
  | nil => exact iff_of_true ⟨own, rfl⟩ (fun a member => absurd member List.not_mem_nil)
  | cons a items ih =>
    have one (next : List (String × Descriptor κ)) : instantiate others bases own a = .ok next ↔ _ :=
      instantiate_ok_iff scanned (fresh a List.mem_cons_self)
    rw [List.forall_mem_cons]
    constructor
    · rintro ⟨final, path⟩
      obtain ⟨next, first, rest⟩ := bind_eq_ok.mp path
      refine ⟨?_, (ih scanned.tail (scanned.fresh_tail fresh first)).mp ⟨final, rest⟩⟩
      intro absent
      have result := (one next).mp first
      rw [if_pos absent] at result
      exact result.1
    · rintro ⟨free, rest⟩
      have some_next : ∃ next, instantiate others bases own a = .ok next := by
        simp only [one]
        split_ifs with absent
        · exact ⟨_, free absent, rfl⟩
        · exact ⟨own, rfl⟩
      obtain ⟨next, first⟩ := some_next
      obtain ⟨final, path⟩ := (ih scanned.tail (scanned.fresh_tail fresh first)).mpr rest
      refine ⟨final, ?_⟩
      rw [List.foldlM_cons, first]
      exact path

private theorem instantiate_all_lookup {items : List (String × Entry κ)}
    (scanned : Scanned bases items)
    {own final : List (String × Descriptor κ)} (fresh : ∀ a ∈ items, own.lookup a.1 = none)
    (path : items.foldlM (instantiate others bases) own = .ok final) (x : String) :
    final.lookup x = (own.lookup x).or
      (if lookupAttribute bases x = none then
        (items.lookup x).map fun e => ⟨e.registerClass, x⟩ else none) := by
  induction items generalizing own with
  | nil =>
    cases path
    simp
  | cons a items ih =>
    obtain ⟨next, first, rest⟩ := bind_eq_ok.mp path
    rw [ih scanned.tail (scanned.fresh_tail fresh first) rest, lookup_cons_eq]
    have here := fresh a List.mem_cons_self
    have result := (instantiate_ok_iff scanned here).mp first
    by_cases same : x = a.1
    · subst same
      have once : items.lookup a.1 = none := by
        by_contra present
        obtain ⟨e, found⟩ := Option.ne_none_iff_exists'.mp present
        exact (List.nodup_cons.mp scanned.unique).1 (mem_keys_iff.mpr ⟨e, found⟩)
      by_cases absent : lookupAttribute bases a.1 = none
      · rw [if_pos absent] at result
        rw [result.2, lookup_set_item, if_pos rfl, here, if_pos absent, once, if_pos absent, if_pos rfl]
        rfl
      · rw [if_neg absent] at result
        rw [result, if_neg absent, if_neg absent]
    · rw [if_neg same]
      split_ifs at result with absent
      · rw [result.2, lookup_set_item, if_neg same]
      · rw [result]

end Loop

section Creation

variable {others : String → Bool}

private theorem mem_of_oldest {chain : List (Body κ)} {name : String} {c : RegisterClass κ}
    (found : oldest chain name = some c) : ∃ body ∈ chain, (name, c) ∈ body.annotations := by
  induction chain with
  | nil => cases found
  | cons body bases ih =>
    rw [oldest] at found
    rcases Option.or_eq_some_iff.mp found with older | ⟨-, own⟩
    · obtain ⟨base, member, there⟩ := ih older
      exact ⟨base, List.mem_cons_of_mem body member, there⟩
    · exact ⟨body, List.mem_cons_self, mem_of_lookup own⟩

private theorem mem_of_most_derived {chain : List (Body κ)} {name : String} {c : RegisterClass κ}
    (found : mostDerived chain name = some c) : ∃ body ∈ chain, (name, c) ∈ body.annotations := by
  induction chain with
  | nil => cases found
  | cons body bases ih =>
    rw [mostDerived] at found
    rcases Option.or_eq_some_iff.mp found with own | ⟨-, older⟩
    · exact ⟨body, List.mem_cons_self, mem_of_lookup own⟩
    · obtain ⟨base, member, there⟩ := ih older
      exact ⟨base, List.mem_cons_of_mem body member, there⟩

private theorem oldest_exists {chain : List (Body κ)} {body : Body κ} (member : body ∈ chain)
    {name : String}
    {c : RegisterClass κ} (annotated : (name, c) ∈ body.annotations) :
    ∃ c', oldest chain name = some c' := by
  induction chain with
  | nil => cases member
  | cons first bases ih =>
    rw [oldest]
    rcases List.mem_cons.mp member with rfl | later
    · rw [lookup_of_mem body.unique annotated]
      cases oldest bases name with
      | some c' => exact ⟨c', rfl⟩
      | none => exact ⟨c, rfl⟩
    · obtain ⟨c', found⟩ := ih later
      exact ⟨c', by rw [found]; rfl⟩

structure Created (chain : List (Body κ)) (classes : List (ModuleClass κ)) : Prop where
  bodies : classes.map ModuleClass.body = chain
  attributes : ∀ name, lookupAttribute (classes.map ModuleClass.own) name =
    (oldest chain name).map fun c => ⟨c, name⟩

structure Admits (others : String → Bool) (chain : List (Body κ)) (body : Body κ) : Prop where
  silent : ∀ name c, oldest chain name = some c → c.kind ≠ .triggerRegister
  free : ∀ a ∈ body.annotations, oldest chain a.1 = none → taken others a.1 = false

variable {chain : List (Body κ)} {classes : List (ModuleClass κ)}

private theorem Created.silent_iff (created : Created chain classes) :
    (∀ name d, lookupAttribute (classes.map ModuleClass.own) name = some d →
      d.registerClass.kind ≠ .triggerRegister) ↔
      ∀ name c, oldest chain name = some c → c.kind ≠ .triggerRegister := by
  simp only [created.attributes, Option.map_eq_some_iff, forall_exists_index, and_imp]
  constructor
  · intro silent name c found
    exact silent name ⟨c, name⟩ c found rfl
  · rintro silent name d c found rfl
    exact silent name c found

private theorem most_derived_none {name : String} (absent : oldest chain name = none) :
    mostDerived chain name = none := by
  cases found : mostDerived chain name with
  | none => rfl
  | some c =>
    obtain ⟨body, member, annotated⟩ := mem_of_most_derived found
    obtain ⟨c', present⟩ := oldest_exists member annotated
    rw [absent] at present
    cases present

private theorem Created.scanned (created : Created chain classes) {body : Body κ}
    {items : List (String × Entry κ)}
    (path : scanModuleClass others (classes.map ModuleClass.own) (getTypeHints (body :: chain)) =
      .ok items) :
    Scanned (classes.map ModuleClass.own) items ∧ ∀ x, items.lookup x =
      ((oldest chain x).map fun c => .instance ⟨c, x⟩).or ((body.annotations.lookup x).map .type) := by
  have unique := nodup_type_hints (body :: chain)
  have silent := (scan_ok_iff unique).mp ⟨items, path⟩
  obtain ⟨items', path', keys, values⟩ := scan_silent others unique silent
  cases path.symm.trans path'
  have entries (x : String) : items.lookup x =
      ((oldest chain x).map fun c => .instance ⟨c, x⟩).or ((body.annotations.lookup x).map .type) := by
    rw [values x, created.attributes, Option.map_map, lookup_type_hints, mostDerived]
    cases found : oldest chain x with
    | some c => rfl
    | none => rw [most_derived_none found, Option.or_none]; rfl
  refine ⟨⟨?_, silent, keys, ?_⟩, entries⟩
  · intro name d found
    rw [created.attributes] at found
    obtain ⟨c, -, rfl⟩ := Option.map_eq_some_iff.mp found
    rfl
  · intro a member absent
    rw [created.attributes] at absent
    have entry := lookup_of_mem keys (x := a.1) (v := a.2) member
    rw [entries, Option.map_eq_none_iff.mp absent] at entry
    obtain ⟨c, -, same⟩ := Option.map_eq_some_iff.mp (show _ = some a.2 from entry)
    exact ⟨c, same.symm⟩

private theorem create_class_eq (created : Created chain classes) (body : Body κ) :
    createClass others classes body =
      (scanModuleClass others (classes.map ModuleClass.own) (getTypeHints (body :: chain))).bind
        fun items => (items.foldlM (instantiate others (classes.map ModuleClass.own)) []).bind
          fun own => .ok ⟨body, own, items⟩ := by
  rw [createClass, created.bodies]
  rfl

private theorem create_ok_iff (created : Created chain classes) (body : Body κ) :
    (∃ c, createClass others classes body = .ok c) ↔ Admits others chain body := by
  have unique := nodup_type_hints (body :: chain)
  rw [create_class_eq created]
  simp only [bind_eq_ok]
  constructor
  · rintro ⟨c, items, path, own, loop, -⟩
    obtain ⟨scanned, entries⟩ := created.scanned path
    refine ⟨created.silent_iff.mp ((scan_ok_iff unique).mp ⟨items, path⟩), ?_⟩
    intro a member absent
    have entry : items.lookup a.1 = some (.type a.2) := by
      rw [entries, absent, lookup_of_mem body.unique (x := a.1) (v := a.2) member]
      rfl
    apply (instantiate_all_iff scanned fun _ _ => rfl).mp ⟨own, loop⟩ _ (mem_of_lookup entry)
    rw [created.attributes, absent]
    rfl
  · intro admits
    obtain ⟨items, path⟩ : ∃ items, scanModuleClass others (classes.map ModuleClass.own)
        (getTypeHints (body :: chain)) = .ok items :=
      (scan_ok_iff unique).mpr (created.silent_iff.mpr admits.silent)
    obtain ⟨scanned, entries⟩ := created.scanned path
    have fresh : ∀ a ∈ items, ([] : List (String × Descriptor κ)).lookup a.1 = none := fun _ _ => rfl
    have free : ∀ a ∈ items, lookupAttribute (classes.map ModuleClass.own) a.1 = none →
        taken others a.1 = false := by
      intro a member absent
      rw [created.attributes, Option.map_eq_none_iff] at absent
      have entry := lookup_of_mem scanned.unique (x := a.1) (v := a.2) member
      rw [entries, absent] at entry
      obtain ⟨c, found, -⟩ := Option.map_eq_some_iff.mp (show _ = some a.2 from entry)
      exact admits.free (a.1, c) (mem_of_lookup found) absent
    obtain ⟨own, loop⟩ := (instantiate_all_iff scanned fresh).mpr free
    exact ⟨_, items, path, own, loop, rfl⟩

private theorem create_ok (created : Created chain classes) {body : Body κ} {c : ModuleClass κ}
    (path : createClass others classes body = .ok c) :
    Created (body :: chain) (c :: classes) ∧ ∀ name,
      (c.registers.lookup name).map Entry.registerClass = oldest (body :: chain) name := by
  rw [create_class_eq created] at path
  simp only [bind_eq_ok] at path
  obtain ⟨items, scan, own, loop, same⟩ := path
  cases same
  obtain ⟨scanned, entries⟩ := created.scanned scan
  refine ⟨⟨congrArg (List.cons body) created.bodies, ?_⟩, ?_⟩
  · intro name
    rw [List.map_cons, lookup_attribute_cons, instantiate_all_lookup scanned (fun _ _ => rfl) loop,
      created.attributes, entries, oldest]
    cases oldest chain name with
    | some c => rfl
    | none => cases body.annotations.lookup name <;> rfl
  · intro name
    rw [entries, oldest]
    cases oldest chain name with
    | some c => rfl
    | none => cases body.annotations.lookup name <;> rfl

end Creation

section Chain

variable (others : String → Bool)

def MostDerivedWins : List (ModuleClass κ) → Prop
  | [] => True
  | c :: bases =>
    (∀ name r, mostDerived ((c :: bases).map ModuleClass.body) name = some r →
      (c.registers.lookup name).map Entry.registerClass = some r ∧
      (lookupAttribute ((c :: bases).map ModuleClass.own) name).map Descriptor.registerClass = some r) ∧
    MostDerivedWins bases

def InheritsLikePython (chain : List (Body κ)) : Prop :=
  ∃ classes, createChain others chain = .ok classes ∧ MostDerivedWins classes

structure Plain (chain : List (Body κ)) : Prop where
  free : ∀ body ∈ chain, ∀ a ∈ body.annotations, taken others a.1 = false
  silent : ∀ body ∈ chain.tail, ∀ a ∈ body.annotations, a.2.kind ≠ .triggerRegister
  same : ∀ body ∈ chain, ∀ a ∈ body.annotations, oldest chain a.1 = some a.2

variable {others}

private theorem chain_created {chain : List (Body κ)} {classes : List (ModuleClass κ)}
    (path : createChain others chain = .ok classes) : Created chain classes := by
  induction chain generalizing classes with
  | nil =>
    cases path
    exact ⟨rfl, fun _ => rfl⟩
  | cons body bases ih =>
    obtain ⟨created, before, rest⟩ := bind_eq_ok.mp path
    obtain ⟨c, new, same⟩ := bind_eq_ok.mp rest
    cases same
    exact (create_ok (ih before) new).1

/-- The registers of the bases decide: an annotation that differs from the oldest one is lost. -/
private theorem inherits_cons (body : Body κ) (chain : List (Body κ)) :
    InheritsLikePython others (body :: chain) ↔
      InheritsLikePython others chain ∧ Admits others chain body ∧
        ∀ name r, mostDerived (body :: chain) name = some r → oldest (body :: chain) name = some r := by
  constructor
  · rintro ⟨classes, path, wins⟩
    obtain ⟨created, before, rest⟩ := bind_eq_ok.mp path
    obtain ⟨c, new, same⟩ := bind_eq_ok.mp rest
    cases same
    have bases := chain_created before
    obtain ⟨above, entries⟩ := create_ok bases new
    refine ⟨⟨created, before, wins.2⟩, (create_ok_iff bases body).mp ⟨c, new⟩, ?_⟩
    intro name r found
    rw [← above.bodies] at found
    rw [← entries name]
    exact (wins.1 name r found).1
  · rintro ⟨⟨created, before, wins⟩, admits, agree⟩
    have bases := chain_created before
    obtain ⟨c, new⟩ := (create_ok_iff bases body).mpr admits
    obtain ⟨above, entries⟩ := create_ok bases new
    refine ⟨c :: created, bind_eq_ok.mpr ⟨created, before, bind_eq_ok.mpr ⟨c, new, rfl⟩⟩, ?_, wins⟩
    intro name r found
    rw [above.bodies] at found
    have first := agree name r found
    refine ⟨(entries name).trans first, ?_⟩
    rw [above.attributes, first]
    rfl

private theorem plain_cons (body : Body κ) (chain : List (Body κ)) :
    Plain others (body :: chain) ↔
      Plain others chain ∧ Admits others chain body ∧
        ∀ name r, mostDerived (body :: chain) name = some r → oldest (body :: chain) name = some r := by
  constructor
  · intro plain
    have older : ∀ base ∈ chain, ∀ a ∈ base.annotations, oldest chain a.1 = some a.2 := by
      intro base member a annotated
      have first := plain.same base (List.mem_cons_of_mem body member) a annotated
      obtain ⟨c, found⟩ := oldest_exists member annotated
      rw [oldest, found] at first
      exact found.trans first
    refine ⟨⟨?_, ?_, older⟩, ⟨?_, ?_⟩, ?_⟩
    · exact fun base member => plain.free base (List.mem_cons_of_mem body member)
    · exact fun base member => plain.silent base (List.mem_of_mem_tail member)
    · intro name c found
      obtain ⟨base, member, annotated⟩ := mem_of_oldest found
      exact plain.silent base member _ annotated
    · exact fun a annotated _ => plain.free body List.mem_cons_self a annotated
    · intro name r found
      obtain ⟨base, member, annotated⟩ := mem_of_most_derived found
      exact plain.same base member _ annotated
  · rintro ⟨plain, admits, agree⟩
    refine ⟨List.forall_mem_cons.mpr ⟨?_, plain.free⟩, ?_, List.forall_mem_cons.mpr ⟨?_, ?_⟩⟩
    · intro a annotated
      cases found : oldest chain a.1 with
      | none => exact admits.free a annotated found
      | some c =>
        obtain ⟨base, member, there⟩ := mem_of_oldest found
        exact plain.free base member (a.1, c) there
    · intro base member a annotated
      exact admits.silent a.1 a.2 (plain.same base member a annotated)
    · intro a annotated
      apply agree
      rw [mostDerived, lookup_of_mem body.unique (x := a.1) (v := a.2) annotated]
      rfl
    · intro base member a annotated
      rw [oldest, plain.same base member a annotated]
      rfl

/-- Registers are inherited and overridden like other attributes exactly if no annotation uses the
name of another attribute, only the most derived class has triggers, and no annotation of a name
differs from the oldest one. -/
theorem inherits_iff (others : String → Bool) (chain : List (Body κ)) :
    InheritsLikePython others chain ↔ Plain others chain := by
  induction chain with
  | nil =>
    refine iff_of_true ⟨[], rfl, trivial⟩ ⟨?_, ?_, ?_⟩ <;>
      exact fun body member => absurd member List.not_mem_nil
  | cons body chain ih => rw [inherits_cons, plain_cons, ih]

def annotating (name : String) (kind : Kind) (r : NumberRegister) : Body NumberRegister :=
  ⟨[(name, ⟨kind, r⟩)], List.nodup_singleton name⟩

/-- The width of a register is not overridden, and no class can be derived from one with a trigger. -/
theorem inherits_iff_counterexample :
    (¬ ∃ others, InheritsLikePython others [annotating "gain" .numberRegister { width := 16 },
      annotating "gain" .numberRegister { width := 8 }]) ∧
    ¬ ∃ others classes, createChain others [annotating "gain" .numberRegister { width := 16 },
      annotating "start" .triggerRegister {}] = .ok classes := by
  constructor
  · rintro ⟨others, inherits⟩
    have agree := ((inherits_cons _ _).mp inherits).2.2 "gain" ⟨.numberRegister, { width := 16 }⟩ rfl
    have widths := congrArg (Option.map fun c => c.attributes.width) agree
    exact absurd widths (by decide)
  · rintro ⟨others, classes, path⟩
    obtain ⟨created, before, rest⟩ := bind_eq_ok.mp path
    obtain ⟨c, new, -⟩ := bind_eq_ok.mp rest
    have admits := (create_ok_iff (chain_created before) _).mp ⟨c, new⟩
    exact admits.silent "start" _ rfl rfl

end Chain

end Pypga.Core.Inheritance
