/- GID: Pypga/Core/SharedRegister
   generality: G
   digest: Connections that access one memory register share its index, and may disturb each other. -/

import Pypga.Core.MountedRegister
import Pypga.Remote.ForkedAccess

set_option autoImplicit false
set_option relaxedAutoImplicit false

namespace Pypga.Core.SharedRegister

open Pypga.Foundation.LabelledRun
open Pypga.Foundation.LittleEndian (Word)
open Pypga.Core.MemoryRegister
open Pypga.Core.IndexedArray
open Pypga.Core.MountedRegister
open Pypga.Remote.MonitorServer
open Pypga.Remote.ForkedAccess

variable {width depth : ℕ} {κ μ ρ π : Type*}

section Gateware

variable {csr : CsrStorage (width + 1) κ} {port : MemoryPort width depth μ} {readonly : Bool}

private theorem quiet_idle_four (r : Register width depth κ μ) (n : ℕ) :
    Quiet csr (idle csr port readonly (4 + n) r) := by
  rw [idle_add]
  apply (quiet_idle port readonly ?_ n).quiet
  obtain ⟨r₁, is₁⟩ : ∃ r₁, r₁ = edge csr port readonly none none r := ⟨_, rfl⟩
  obtain ⟨r₂, is₂⟩ : ∃ r₂, r₂ = edge csr port readonly none none r₁ := ⟨_, rfl⟩
  have last : idle csr port readonly 4 r =
      edge csr port readonly none none (edge csr port readonly none none r₂) := by
    rw [is₂, is₁]
    rfl
  have silent : csr.re r₁.csr = false := by
    rw [is₁]
    exact silent_edge r
  have still : Still csr r₂ := by
    rw [is₂]
    exact ⟨silent_edge r₁, we_edge_of_silent silent none⟩
  have first : r₂.wePipeline₀ = false := by
    rw [is₂]
    exact update_index_of_silent silent
  have third := passed_edge port readonly still
  have fourth := passed_edge port readonly third.still
  rw [last]
  refine ⟨fourth.still.re, fourth.wePipeline₀, ?_, ?_, fourth.still.we⟩
  · rw [fourth.wePipeline₁, third.wePipeline₀]
  · rw [fourth.csrWe, third.wePipeline₁, first]

theorem quiet_settle (bus : Option Word) (n : ℕ) (r : Register width depth κ μ) :
    Quiet csr (settle csr port readonly bus (5 + n) r) := by
  have four : 5 + n = 4 + (1 + n) := by omega
  rw [settle, four]
  exact quiet_idle_four _ _

theorem represents_of_quiet {r : Register width depth κ μ} (quiet : Quiet csr r) :
    Represents csr port false r ⟨port.mem r.memory, r.adr.toNat⟩ :=
  ⟨quiet, rfl, rfl, fun fresh => by cases fresh⟩

variable (csr port readonly) in
/-- The entry `i` is selected for a transfer; what is to be read is shown. -/
structure Selected (writing : Bool) (i : ℕ) (r : Register width depth κ μ) : Prop where
  inside : i < depth
  fits : i < 2 ^ width
  writable : writing = true → readonly = false
  represents : Represents csr port (!writing) r ⟨port.mem r.memory, i⟩

theorem Selected.idle {writing : Bool} {i : ℕ} {r : Register width depth κ μ}
    (selected : Selected csr port readonly writing i r) (n : ℕ) :
    Selected csr port readonly writing i (settle csr port readonly none n r) := by
  have after : Represents csr port (!writing) (settle csr port readonly none n r)
      ⟨port.mem r.memory, i⟩ := idle_refines selected.represents n
  refine ⟨selected.inside, selected.fits, selected.writable, ?_⟩
  rw [after.mem]
  exact after

private theorem selected_index {i : ℕ} (small : i < 2 ^ 31) (inside : i < depth)
    (fits : i < 2 ^ width)
    {writing : Bool} (writable : writing = true → readonly = false) {r : Register width depth κ μ}
    (quiet : Quiet csr r) (n : ℕ) :
    Selected csr port readonly writing i (settle csr port readonly (some (indexWord i)) (5 + n) r) ∧
      port.mem (settle csr port readonly (some (indexWord i)) (5 + n) r).memory = port.mem r.memory := by
  have same : i % 2 ^ width = i := Nat.mod_eq_of_lt fits
  have four : 5 + n = 4 + (1 + n) := by omega
  have holds : Holds csr port readonly r (port.mem r.memory) :=
    .inl ⟨false, _, represents_of_quiet quiet⟩
  have after := index_refines small (by rwa [same]) holds (1 + n)
  rw [same, ← four] at after
  refine ⟨⟨inside, fits, writable, ⟨after.quiet, rfl, after.idx, fun _ => ?_⟩⟩, after.mem⟩
  rw [after.shown rfl, Selection.get, Selection.get, after.mem]

private theorem selected_value {i : ℕ} {r : Register width depth κ μ}
    (selected : Selected csr port readonly true i r) {word : Word} (even : word.toNat % 2 = 0) (n : ℕ) :
    Selected csr port readonly true i (settle csr port readonly (some word) (5 + n) r) ∧
      port.mem (settle csr port readonly (some word) (5 + n) r).memory =
        Function.update (port.mem r.memory) i (payload (word.setWidth (width + 1))) := by
  have two : 5 + n = 2 + (3 + n) := by omega
  obtain rfl := selected.writable rfl
  have after := even_refines word even selected.represents selected.inside (3 + n)
  rw [← two] at after
  refine ⟨⟨selected.inside, selected.fits, fun _ => rfl, ?_⟩, after.mem⟩
  exact ⟨after.quiet, rfl, after.idx, fun fresh => by cases fresh⟩

private theorem selected_read {i : ℕ} {r : Register width depth κ μ}
    (selected : Selected csr port readonly false i r) :
    (csr.storage r.csr).setWidth 32 = (port.mem r.memory i).setWidth 32 :=
  read_refines selected.represents

private theorem payload_of_fits {v : Word} (fits : width ≤ 31 ∨ v.toNat < 2 ^ 31) :
    payload ((v <<< 1).setWidth (width + 1)) = v.setWidth width := by
  rcases fits with narrow | small
  · exact payload_value narrow v
  · have word : 2 * v.toNat % 2 ^ 32 = 2 * v.toNat := Nat.mod_eq_of_lt (by omega)
    apply BitVec.eq_of_toNat_eq
    rw [payload_to_nat, value_word_to_nat, BitVec.toNat_setWidth, word,
      Nat.mul_div_cancel_left _ (by decide)]

end Gateware

section Connections

variable {csr : CsrStorage (width + 1) κ} {port : MemoryPort width depth μ} {readonly : Bool}
variable {address : Word} {rest : Bus ρ}

private theorem load_register (a : Word) (d : Board width depth κ μ ρ) :
    ((mount csr port readonly address rest).load a d).2.register =
      settle csr port readonly none (5 + d.late 0) d.register := by
  dsimp only [mount]
  split_ifs <;> rfl

private theorem access_register {b b' : Process} {d d' : Board width depth κ μ ρ}
    (moved : b.access (mount csr port readonly address rest) d = some (b', d')) :
    (∃ word, b.stores = some (address, word) ∧
      d'.register = settle csr port readonly (some word) (5 + d.late 0) d.register) ∨
    ((∀ word, b.stores ≠ some (address, word)) ∧
      (d'.register = settle csr port readonly none (5 + d.late 0) d.register ∨
        d'.register = d.register)) := by
  rcases access_device moved with ⟨a, word, stores, rfl⟩ | ⟨nothing, loads⟩
  · by_cases here : a = address
    · subst here
      exact .inl ⟨word, stores, congrArg Board.register (store_mount word d)⟩
    · refine .inr ⟨fun other same => ?_, .inl (congrArg Board.register (if_neg here))⟩
      rw [stores] at same
      cases same
      exact here rfl
  · refine .inr ⟨fun word same => absurd (nothing.symm.trans same) nofun, ?_⟩
    rcases loads with ⟨a, rfl⟩ | rfl | ⟨offset, fetched, found, rfl⟩
    · exact .inl (load_register a d)
    · exact .inr rfl
    · obtain ⟨inner, -, rfl⟩ := Option.map_eq_some_iff.mp found
      exact .inr rfl

variable (address) in
/-- A stored word spares a process that is about to transfer an entry: it selects the same entry,
or it is another value for it. -/
def Spares (word : Word) (b : Process) : Prop :=
  match b.task with
  | .transfer writing a _ i => a = address → word = indexWord i ∨ writing = true ∧ word.toNat % 2 = 0
  | _ => True

instance (word : Word) (b : Process) : Decidable (Spares address word b) :=
  match b with
  | ⟨.transfer writing a _ i, _⟩ =>
    inferInstanceAs (Decidable (a = address → word = indexWord i ∨ writing = true ∧ word.toNat % 2 = 0))
  | ⟨.waiting, _⟩ => .isTrue trivial
  | ⟨.single _ _, _⟩ => .isTrue trivial
  | ⟨.select _ _ _ _, _⟩ => .isTrue trivial
  | ⟨.copy _ _, _⟩ => .isTrue trivial
  | ⟨.failed, _⟩ => .isTrue trivial

variable (width depth readonly address) in
def Acceptable (b : Process) : Prop :=
  match b.task with
  | .select writing a _ i => a = address → i < depth ∧ i < 2 ^ width ∧ (writing = true → readonly = false)
  | .transfer true a _ i => a = address → width ≤ 31 ∨ (b.buffer i).toNat < 2 ^ 31
  | _ => True

instance (b : Process) : Decidable (Acceptable width depth readonly address b) :=
  match b with
  | ⟨.select writing a _ i, _⟩ =>
    inferInstanceAs (Decidable (a = address → i < depth ∧ i < 2 ^ width ∧ (writing = true → readonly = false)))
  | ⟨.transfer true a _ i, buffer⟩ =>
    inferInstanceAs (Decidable (a = address → width ≤ 31 ∨ (buffer i).toNat < 2 ^ 31))
  | ⟨.transfer false _ _ _, _⟩ => .isTrue trivial
  | ⟨.waiting, _⟩ => .isTrue trivial
  | ⟨.single _ _, _⟩ => .isTrue trivial
  | ⟨.copy _ _, _⟩ => .isTrue trivial
  | ⟨.failed, _⟩ => .isTrue trivial

variable (readonly address) in
/-- No step disturbs a process between its two accesses to an entry. -/
def Undisturbed (l : Label π) (s : System π (Board width depth κ μ ρ)) : Prop :=
  match l with
  | .begin _ _ => True
  | .access p =>
    Acceptable width depth readonly address (s.process p) ∧
      match (s.process p).stores with
      | none => True
      | some (a, word) => a = address → ∀ q ≠ p, Spares address word (s.process q)

instance [Fintype π] [DecidableEq π] (l : Label π) (s : System π (Board width depth κ μ ρ)) :
    Decidable (Undisturbed readonly address l s) :=
  match l with
  | .begin _ _ => .isTrue trivial
  | .access p =>
    have : Decidable (match (s.process p).stores with
        | none => True
        | some (a, word) => a = address → ∀ q ≠ p, Spares address word (s.process q)) :=
      match (s.process p).stores with
      | none => .isTrue trivial
      | some (a, word) =>
        inferInstanceAs (Decidable (a = address → ∀ q ≠ p, Spares address word (s.process q)))
    inferInstanceAs (Decidable (Acceptable width depth readonly address (s.process p) ∧ _))

variable (csr port readonly address) in
/-- Nothing is on its way in the register, and what a process is about to transfer is selected. -/
structure Settled (s : System π (Board width depth κ μ ρ)) : Prop where
  quiet : Quiet csr s.device.register
  inside : s.Inside
  selected : ∀ p writing length i, (s.process p).task = .transfer writing address length i →
    Selected csr port readonly writing i s.device.register

private theorem Selected.spared {writing : Bool} {i : ℕ} (small : i < 2 ^ 31)
    {r : Register width depth κ μ}
    (selected : Selected csr port readonly writing i r) {word : Word}
    (spares : word = indexWord i ∨ writing = true ∧ word.toNat % 2 = 0) (n : ℕ) :
    Selected csr port readonly writing i (settle csr port readonly (some word) (5 + n) r) := by
  rcases spares with rfl | ⟨rfl, even⟩
  · exact (selected_index small selected.inside selected.fits selected.writable
      selected.represents.quiet n).1
  · exact (selected_value selected even n).1

private theorem small_entry {s : System π (Board width depth κ μ ρ)}
    (settled : Settled csr port readonly address s) {p : π} {writing : Bool} {length i : ℕ} {a : Word}
    (task : (s.process p).task = .select writing a length i ∨
      (s.process p).task = .transfer writing a length i) : i < 2 ^ 31 := by
  have inside := settled.inside p
  have most : maxLength = 65535 := rfl
  rcases task with task | task <;> rw [task] at inside <;> have bound := inside.1.trans_le inside.2 <;>
    omega

private theorem settled_start {s : System π (Board width depth κ μ ρ)}
    (waiting : ∀ p, (s.process p).task = .waiting) (quiet : Quiet csr s.device.register) :
    Settled csr port readonly address s := by
  refine ⟨quiet, fun p => ?_, fun p writing length i task => ?_⟩
  · rw [waiting p]
    trivial
  · rw [waiting p] at task
    cases task

variable [DecidableEq π]

section Access

variable {s : System π (Board width depth κ μ ρ)} {p q : π} {b : Process} {d : Board width depth κ μ ρ}
variable (settled : Settled csr port readonly address s)
variable (access : (s.process p).access (mount csr port readonly address rest) s.device = some (b, d))
variable {writing : Bool} {length i : ℕ}
variable (task : (Function.update s.process p b q).task = .transfer writing address length i)
include settled access task

private theorem selected_stored (undisturbed : Undisturbed readonly address (.access p) s)
    {word : Word}
    (stores : (s.process p).stores = some (address, word))
    (after : d.register =
      settle csr port readonly (some word) (5 + s.device.late 0) s.device.register) :
    Selected csr port readonly writing i d.register := by
  obtain ⟨acceptable, spares⟩ := undisturbed
  rw [stores] at spares
  rw [after]
  by_cases same : q = p
  · subst same
    rw [Function.update_self] at task
    have before := select_before access task
    rw [Process.stores, before] at stores
    cases stores
    rw [Acceptable, before] at acceptable
    obtain ⟨within, fits, writable⟩ := acceptable rfl
    exact (selected_index (small_entry settled (.inl before)) within fits writable settled.quiet _).1
  · rw [Function.update_of_ne same] at task
    have spared := spares rfl q same
    rw [Spares, task] at spared
    exact (settled.selected q writing length i task).spared (small_entry settled (.inr task))
      (spared rfl) _

private theorem selected_elsewhere (elsewhere : ∀ word, (s.process p).stores ≠ some (address, word))
    (after : d.register = settle csr port readonly none (5 + s.device.late 0) s.device.register ∨
      d.register = s.device.register) : Selected csr port readonly writing i d.register := by
  by_cases same : q = p
  · subst same
    rw [Function.update_self] at task
    have before := select_before access task
    rw [Process.stores, before] at elsewhere
    exact absurd rfl (elsewhere _)
  · rw [Function.update_of_ne same] at task
    have selected := settled.selected q writing length i task
    rcases after with after | after <;> rw [after]
    · exact selected.idle _
    · exact selected

end Access

private theorem settled_begun {s : System π (Board width depth κ μ ρ)}
    (settled : Settled csr port readonly address s) {p : π} {c : Command}
    (inside : (s.begun p c).Inside) : Settled csr port readonly address (s.begun p c) := by
  refine ⟨settled.quiet, inside, ?_⟩
  intro q writing length i task
  by_cases same : q = p
  · subst same
    rw [System.begun_self] at task
    exact absurd task (begin_task _ _)
  · rw [System.begun_of_ne s same] at task
    exact settled.selected q writing length i task

private theorem settled_step {l : Label π} {s s' : System π (Board width depth κ μ ρ)}
    (settled : Settled csr port readonly address s) (undisturbed : Undisturbed readonly address l s)
    (moved : System.step (mount csr port readonly address rest) l s = some s') :
    Settled csr port readonly address s' := by
  have inside := System.inside_step settled.inside moved
  cases l with
  | begin p c =>
    obtain ⟨-, -, rfl⟩ := System.step_begin.mp moved
    exact settled_begun settled inside
  | access p =>
    obtain ⟨b, d, access, rfl⟩ := System.step_access.mp moved
    rcases access_register access with ⟨word, stores, after⟩ | ⟨elsewhere, after⟩
    · refine ⟨?_, inside, fun q writing length i task => ?_⟩
      · dsimp only
        rw [after]
        exact quiet_settle _ _ _
      · exact selected_stored settled access task undisturbed stores after
    · refine ⟨?_, inside, fun q writing length i task => ?_⟩
      · dsimp only
        rcases after with after | after <;> rw [after]
        · exact quiet_settle _ _ _
        · exact settled.quiet
      · exact selected_elsewhere settled access task elsewhere after

variable (port) in
def contents {π : Type*} (s : System π (Board width depth κ μ ρ)) : ℕ → BitVec width :=
  port.mem s.device.register.memory

section Transfer

variable {s s' : System π (Board width depth κ μ ρ)} {p : π} {length i : ℕ}
variable (settled : Settled csr port readonly address s)
variable (moved : System.step (mount csr port readonly address rest) (.access p) s = some s')
include settled moved

private theorem entry_selected {writing : Bool}
    (undisturbed : Undisturbed readonly address (.access p) s)
    (task : (s.process p).task = .select writing address length i) :
    contents port s' = contents port s := by
  obtain ⟨b, d, access, rfl⟩ := System.step_access.mp moved
  have acceptable := undisturbed.1
  have next := access_task access
  rw [Acceptable, task] at acceptable
  rw [task] at next
  obtain ⟨within, fits, writable⟩ := acceptable rfl
  rw [contents, next.2, store_mount]
  exact (selected_index (small_entry settled (.inl task)) within fits writable settled.quiet _).2

private theorem entry_read (task : (s.process p).task = .transfer false address length i) :
    (s'.process p).buffer i = (contents port s i).setWidth 32 := by
  obtain ⟨b, d, access, rfl⟩ := System.step_access.mp moved
  have next := access_task access
  rw [task] at next
  dsimp only
  rw [Function.update_self, next.1, load_mount]
  dsimp only
  rw [Function.update_self]
  exact selected_read (settled.selected p false length i task)

private theorem entry_stored (undisturbed : Undisturbed readonly address (.access p) s)
    (task : (s.process p).task = .transfer true address length i) :
    contents port s' =
      Function.update (contents port s) i (((s.process p).buffer i).setWidth width) := by
  obtain ⟨b, d, access, rfl⟩ := System.step_access.mp moved
  have acceptable := undisturbed.1
  have next := access_task access
  rw [Acceptable, task] at acceptable
  rw [task] at next
  have even : ((s.process p).buffer i <<< 1).toNat % 2 = 0 := by
    rw [value_word_to_nat]
    omega
  rw [contents, next.2, store_mount, ← payload_of_fits (acceptable rfl)]
  exact (selected_value (settled.selected p true length i task) even _).2

end Transfer

variable (port) in
def ReadsArray (bus : Bus (Board width depth κ μ ρ)) (p : π) (length : ℕ) (during : List (Label π))
    (start final : System π (Board width depth κ μ ρ)) : Prop :=
  ∀ i < length, ∃ ks m, ks <+: during ∧ run (System.step bus) ks start = some m ∧
    (final.process p).buffer i = (contents port m i).setWidth 32

variable (port) in
def StoresEntry (words : List Word) (i : ℕ) (m m' : System π (Board width depth κ μ ρ)) : Prop :=
  ∃ v ∈ words[i]?, contents port m' = Function.update (contents port m) i (v.setWidth width)

variable (port) in
def WritesArray (bus : Bus (Board width depth κ μ ρ)) (p : π) (words : List Word)
    (during : List (Label π)) (start : System π (Board width depth κ μ ρ)) : Prop :=
  ∀ i < words.length, ∃ ks m m', ks ++ [.access p] <+: during ∧
    run (System.step bus) ks start = some m ∧ System.step bus (.access p) m = some m' ∧
    StoresEntry port words i m m'

variable (port) in
def WritesOnly (bus : Bus (Board width depth κ μ ρ)) (p : π) (words : List Word)
    (during : List (Label π)) (start : System π (Board width depth κ μ ρ)) : Prop :=
  ∀ ks m m', ks ++ [.access p] <+: during → run (System.step bus) ks start = some m →
    System.step bus (.access p) m = some m' →
    contents port m' = contents port m ∨ ∃ i, StoresEntry port words i m m'

private theorem settled_run {ls : List (Label π)} {s m : System π (Board width depth κ μ ρ)}
    (settled : Settled csr port readonly address s)
    (along : Along (System.step (mount csr port readonly address rest))
      (Undisturbed readonly address) ls s)
    (path : run (System.step (mount csr port readonly address rest)) ls s = some m) :
    Settled csr port readonly address m :=
  run_invariant (Settled csr port readonly address)
    (fun _ _ _ settled undisturbed moved => settled_step settled undisturbed moved) settled along path

private theorem settled_moment {ks after : List (Label π)} {l : Label π}
    {s m : System π (Board width depth κ μ ρ)} (settled : Settled csr port readonly address s)
    (along : Along (System.step (mount csr port readonly address rest))
      (Undisturbed readonly address) (ks ++ l :: after) s)
    (path : run (System.step (mount csr port readonly address rest)) ks s = some m) :
    Settled csr port readonly address m ∧ Undisturbed readonly address l m := by
  obtain ⟨first, later⟩ := along_append.mp along
  exact ⟨settled_run settled first path, (later m path).1⟩

section Command

variable {p : π} {during : List (Label π)} {start final : System π (Board width depth κ μ ρ)}
variable (settled : Settled csr port readonly address start)
variable (along : Along (System.step (mount csr port readonly address rest))
  (Undisturbed readonly address) during start)
include settled along

private theorem reads_array (path : run (System.step (mount csr port readonly address rest)) during start = some final)
    (own : ∀ c, .begin p c ∉ during) {length : ℕ}
    (here : System.AtEntry p false address length 0 start) (ended : (final.process p).task = .waiting) :
    ReadsArray port (mount csr port readonly address rest) p length during start final := by
  intro i small
  obtain ⟨ks, after, m, m', split, first, access, task, -, kept⟩ :=
    System.entry_transferred path own ended here (Nat.zero_le i) small
  rw [split] at along
  have read := entry_read (settled_moment settled along first).1 access task
  exact ⟨ks, m, split ▸ List.prefix_append ks _, first, kept.trans read⟩

private theorem writes_array (path : run (System.step (mount csr port readonly address rest)) during start = some final)
    (own : ∀ c, .begin p c ∉ during) {words : List Word}
    (filled : ∀ i < words.length, (start.process p).buffer i ∈ words[i]?)
    (here : System.AtEntry p true address words.length 0 start)
    (ended : (final.process p).task = .waiting) :
    WritesArray port (mount csr port readonly address rest) p words during start := by
  intro i small
  obtain ⟨ks, after, m, m', split, first, access, task, same, -⟩ :=
    System.entry_transferred path own ended here (Nat.zero_le i) small
  rw [split] at along
  obtain ⟨moment, undisturbed⟩ := settled_moment settled along first
  have stored := entry_stored moment access undisturbed task
  rw [same rfl] at stored
  exact ⟨ks, m, m', ⟨after, (List.append_assoc ks _ after).trans split.symm⟩, first, access, _,
    filled i small, stored⟩

private theorem writes_only (own : ∀ c, .begin p c ∉ during) {words : List Word}
    (filled : ∀ i < words.length, (start.process p).buffer i ∈ words[i]?)
    (inside : System.InLoop p true address words.length start) :
    WritesOnly port (mount csr port readonly address rest) p words during start := by
  rintro ks m m' ⟨after, split⟩ first access
  rw [List.append_assoc] at split
  subst split
  have advanced := System.advanced_run inside (fun c member => own c (List.mem_append_left _ member)) first
  obtain ⟨moment, undisturbed⟩ := settled_moment settled along first
  rcases advanced.inside with waiting | ⟨i, small, task | task⟩
  · exact absurd rfl (System.waiting_step access nofun waiting).1
  · exact .inl (entry_selected moment access undisturbed task)
  · have stored := entry_stored moment access undisturbed task
    rw [advanced.words rfl] at stored
    exact .inr ⟨i, _, filled i small, stored⟩

end Command

/-- While no process is disturbed between its two accesses to an entry, what an array command reads
was in the entries, and what it writes reaches its own entries and no other. -/
theorem arrays_undisturbed {s₀ s start final : System π (Board width depth κ μ ρ)}
    {before during : List (Label π)} {p : π} {c : Command}
    (waiting : ∀ p, (s₀.process p).task = .waiting) (quiet : Quiet csr s₀.device.register)
    (along : Along (System.step (mount csr port readonly address rest))
      (Undisturbed readonly address) (before ++ .begin p c :: during) s₀)
    (reached : run (System.step (mount csr port readonly address rest)) before s₀ = some s)
    (begun : System.step (mount csr port readonly address rest) (.begin p c) s = some start)
    (path : run (System.step (mount csr port readonly address rest)) during start = some final)
    (own : ∀ c, .begin p c ∉ during) (many : 1 < c.words) :
    (∀ length, c = .read address length →
      System.InTurn (mount csr port readonly address rest) p length during final ∧
      ((final.process p).task = .waiting →
        ReadsArray port (mount csr port readonly address rest) p length during start final)) ∧
    ∀ words, c = .write address words →
      System.InTurn (mount csr port readonly address rest) p words.length during final ∧
      WritesOnly port (mount csr port readonly address rest) p words during start ∧
      ((final.process p).task = .waiting →
        WritesArray port (mount csr port readonly address rest) p words during start) := by
  obtain ⟨moment, undisturbed⟩ := settled_moment (settled_start waiting quiet) along reached
  have settled := settled_step moment undisturbed begun
  have during_along := ((along_append.mp along).2 s reached).2 start begun
  obtain ⟨-, -, rfl⟩ := System.step_begin.mp begun
  constructor
  · rintro length rfl
    have here := (System.loop_begun (s := s) (p := p) (c := .read address length) many rfl).1
    exact ⟨System.loop_in_turn many rfl own path, reads_array settled during_along path own here⟩
  · rintro words rfl
    have here := (System.loop_begun (s := s) (p := p) (c := .write address words) many rfl).1
    have filled : ∀ i < words.length,
        ((s.begun p (.write address words)).process p).buffer i ∈ words[i]? := by
      intro i small
      rw [System.begun_self]
      show words[i]? = some (words.getD i _)
      rw [List.getD_eq_getElem _ _ small, List.getElem?_eq_getElem small]
    have inside : System.InLoop p true address words.length (s.begun p (.write address words)) :=
      .inr ⟨0, Nat.zero_lt_of_lt many, here⟩
    exact ⟨System.loop_in_turn many rfl own path, writes_only settled during_along own filled inside,
      writes_array settled during_along path own filled here⟩

end Connections

section Two

def twoConnections : System Bool
    (Board 8 2 (BitVec 9 × Bool) ((ℕ → BitVec 8) × BitVec (adrWidth 2)) Word) where
  process _ := ⟨.waiting, fun _ => 0⟩
  device :=
    { register := ⟨(0, false), (fun i => if i = 0 then 5 else 6, 0), 0, false, false, false, 0, false⟩
      late := fun _ => 0
      rest := 0 }

def twoBus : Bus (Board 8 2 (BitVec 9 × Bool) ((ℕ → BitVec 8) × BitVec (adrWidth 2)) Word) :=
  mount (csrStorage 9) (writeFirst 8 2) false 0x40000000 latch

def inTurns : List (Label Bool) :=
  [.begin false (.read 0x40000000 2), .access true, .access true, .access false, .access false,
    .access true, .access true, .access false, .access false]

/-- The second connection selects its first entry when the first one has selected its second. -/
def overlapping : List (Label Bool) :=
  [.begin false (.read 0x40000000 2), .access true, .access true, .access true, .access false,
    .access true]

private theorem begun_two {c : Command} (short : c.words ≤ maxLength) :
    System.step twoBus (.begin true c) twoConnections = some (twoConnections.begun true c) :=
  System.step_begin.mpr ⟨rfl, short, rfl⟩

theorem arrays_undisturbed_in_turns :
    ∃ start final, System.step twoBus (.begin true (.write 0x40000000 [7, 8])) twoConnections = some start ∧
      run (System.step twoBus) inTurns start = some final ∧ (final.process true).task = .waiting ∧
      WritesOnly (writeFirst 8 2) twoBus true [7, 8] inTurns start ∧
      WritesArray (writeFirst 8 2) twoBus true [7, 8] inTurns start := by
  have reached : run (System.step (mount (csrStorage 9) (writeFirst 8 2) false 0x40000000 latch)) []
      twoConnections = some twoConnections := rfl
  have begun := begun_two (c := .write 0x40000000 [7, 8]) (by decide)
  obtain ⟨final, path⟩ : ∃ final, run (System.step twoBus) inTurns
      (twoConnections.begun true (.write 0x40000000 [7, 8])) = some final :=
    Option.isSome_iff_exists.mp (by decide +kernel)
  obtain ⟨turn, only, all⟩ := (arrays_undisturbed (fun _ => rfl) ⟨rfl, rfl, rfl, rfl, rfl⟩
    (by decide +kernel) reached begun path (by simp [inTurns]) (by decide)).2 [7, 8] rfl
  have ended := turn.ended.mpr (by decide)
  exact ⟨_, final, begun, path, ended, only, all ended⟩

/-- The first connection reads the first entry twice, and writes its second word over its first. -/
theorem arrays_undisturbed_counterexample :
    (∃ start final, System.step twoBus (.begin true (.read 0x40000000 2)) twoConnections = some start ∧
      run (System.step twoBus) overlapping start = some final ∧ (final.process true).task = .waiting ∧
      ¬ ReadsArray (writeFirst 8 2) twoBus true 2 overlapping start final) ∧
    ∃ start final, System.step twoBus (.begin true (.write 0x40000000 [7, 8])) twoConnections = some start ∧
      run (System.step twoBus) overlapping start = some final ∧ (final.process true).task = .waiting ∧
      ¬ WritesOnly (writeFirst 8 2) twoBus true [7, 8] overlapping start := by
  constructor
  · have begun := begun_two (c := .read 0x40000000 2) (by decide)
    obtain ⟨final, path⟩ : ∃ final, run (System.step twoBus) overlapping
        (twoConnections.begun true (.read 0x40000000 2)) = some final :=
      Option.isSome_iff_exists.mp (by decide +kernel)
    have wrong : ∀ final ∈ run (System.step twoBus) overlapping
        (twoConnections.begun true (.read 0x40000000 2)), (final.process true).task = .waiting ∧
        ∀ ks ∈ overlapping.inits, ∀ m ∈ run (System.step twoBus) ks
          (twoConnections.begun true (.read 0x40000000 2)),
          (final.process true).buffer 1 ≠ (contents (writeFirst 8 2) m 1).setWidth 32 := by
      decide +kernel
    obtain ⟨ended, never⟩ := wrong final path
    refine ⟨_, final, begun, path, ended, fun reads => ?_⟩
    obtain ⟨ks, m, before, moment, same⟩ := reads 1 (by decide)
    exact never ks ((List.mem_inits ks overlapping).mpr before) m moment same
  · have begun := begun_two (c := .write 0x40000000 [7, 8]) (by decide)
    obtain ⟨m, first⟩ : ∃ m, run (System.step twoBus) (overlapping.take 5)
        (twoConnections.begun true (.write 0x40000000 [7, 8])) = some m :=
      Option.isSome_iff_exists.mp (by decide +kernel)
    have wrong : ∀ m ∈ run (System.step twoBus) (overlapping.take 5)
        (twoConnections.begun true (.write 0x40000000 [7, 8])),
        ∃ final ∈ System.step twoBus (.access true) m, (final.process true).task = .waiting ∧
          contents (writeFirst 8 2) m 0 = 7 ∧ contents (writeFirst 8 2) final 0 = 8 := by
      decide +kernel
    obtain ⟨final, last, ended, before, after⟩ := wrong m first
    have path : run (System.step twoBus) overlapping
        (twoConnections.begun true (.write 0x40000000 [7, 8])) = some final :=
      run_append.mpr ⟨m, first, run_cons.mpr ⟨final, last, rfl⟩⟩
    refine ⟨_, final, begun, path, ended, fun only => ?_⟩
    rcases only (overlapping.take 5) m final (by decide) first last with same | ⟨i, v, word, stored⟩
    · rw [same, before] at after
      exact absurd after (by decide)
    · have here := congrFun stored 0
      rw [after] at here
      match i, word with
      | 0, word =>
        obtain rfl : 7 = v := Option.some.inj word
        rw [Function.update_self] at here
        exact absurd here (by decide)
      | i + 1, _ =>
        rw [Function.update_of_ne (Nat.succ_ne_zero i).symm, before] at here
        exact absurd here (by decide)

end Two

end Pypga.Core.SharedRegister
