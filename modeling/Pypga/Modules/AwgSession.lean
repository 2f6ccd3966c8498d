/- GID: Pypga/Modules/AwgSession
   generality: G
   digest: After a session of assignments a software trigger plays the values that were assigned last. -/

import Pypga.Core.OffsetLaw
import Pypga.Modules.AwgBoard
import Pypga.Modules.Playback

set_option autoImplicit false
set_option relaxedAutoImplicit false

namespace Pypga.Modules.AwgSession

open Pypga.Foundation.ClockedMachine (run_congr)
open Pypga.Foundation.FixedWidth
open Pypga.Foundation.LittleEndian (Word)
open Pypga.Remote.MonitorServer
open Pypga.Remote.SocketClient (Op)
open Pypga.Remote.DirectAccess
open Pypga.Remote.Connection (Config Label)
open Pypga.Remote.ProtocolRefinement (answered_of_admissible)
open Pypga.Core.MemoryRegister
open Pypga.Core.IndexedArray (settle)
open Pypga.Core.MountedRegister (mount write_loop)
open Pypga.Core.SharedRegister (quiet_settle)
open Pypga.Core.WordEncoding
open Pypga.Core.OffsetLaw (Converts)
open Pypga.Core.RegisterFile (remoteOp)
open Pypga.Core.RemoteInterface (Complete complete_exists complete_executed)
open Pypga.Modules.Awg
open Pypga.Modules.AwgBoard
open Pypga.Modules.Playback

section Calls

private theorem representable_of_offset {r : Core.Registers.NumberRegister}
    (lower : r.offsetFromPython ≤ 0)
    (v : ℚ) : Representable r (ranged r v) := by
  have least : ranged r v ≤ r.intMax := by
    have range : (r.intMin : ℚ) ≤ r.intMax := by exact_mod_cast int_min_le_max r
    exact max_le range (min_le_left _ _)
  have floor : ⌊ranged r v⌋ ≤ r.intMax := by
    rw [← Int.floor_intCast (R := ℚ) r.intMax]
    exact Int.floor_le_floor least
  have whole : r.intMax < 2 ^ r.width := by
    have half : (2 : ℤ) ^ (r.width - 1) ≤ 2 ^ r.width := pow_le_pow_right₀ (by decide) (Nat.sub_le _ _)
    unfold Core.Registers.NumberRegister.intMax
    split <;> omega
  unfold Representable
  split_ifs with negative
  · have below : ⌊ranged r v⌋ < 0 := Int.floor_lt.mpr (by exact_mod_cast negative.2)
    omega
  · omega

variable (a : Arguments)

def integers : Statement → List ℤ
  | .data values => values.reverse.map (AnyRegister.fixedPoint a.data).encoded
  | .samplingPeriodCycles value => [(AnyRegister.number a.samplingPeriodCycles).encoded value]
  | .alwaysOn value => [(AnyRegister.bool Awg.alwaysOn).encoded value]
  | .softwareTrigger => [0]

variable {a}

private theorem integers_fit (narrow : a.dataWidth ≤ 32) (narrow' : a.samplingPeriodWidth ≤ 32)
    (s : Statement) :
    ∀ k ∈ integers a s, 0 ≤ k ∧ k < 2 ^ 32 := by
  have fits (r : AnyRegister) (slim : r.toRegister.width ≤ 32) {v : ℚ} (reach : InReach r v) :
      0 ≤ r.encoded v ∧ r.encoded v < 2 ^ 32 := by
    obtain ⟨nonneg, small⟩ := (is_word_iff r v).mpr reach
    exact ⟨nonneg, small.trans_le (pow_le_pow_right₀ (by decide) slim)⟩
  intro k member
  cases s with
  | data values =>
    obtain ⟨v, -, rfl⟩ := List.mem_map.mp member
    exact fits (.fixedPoint a.data) narrow (representable_of_offset le_rfl _)
  | samplingPeriodCycles value =>
    obtain rfl := List.mem_singleton.mp member
    exact fits (.number a.samplingPeriodCycles) narrow' (representable_of_offset (by decide : (-2 : ℤ) ≤ 0) _)
  | alwaysOn value =>
    obtain rfl := List.mem_singleton.mp member
    apply fits (.bool Awg.alwaysOn) (by decide)
    simp only [InReach]
    split <;> decide
  | softwareTrigger =>
    obtain rfl := List.mem_singleton.mp member
    decide

variable (a) in
def op (l : Addresses) (s : Statement) : Op :=
  .writes (l.word s.port) ((integers a s).map (BitVec.ofInt 32))

private theorem op_admissible (l : Addresses) (few : a.dataDepth ≤ 65533) (deep : 2 ≤ a.dataDepth)
    {s : Statement}
    (full : ∀ values, s = .data values → values.length = a.dataDepth) : Admissible (op a l s) := by
  cases s with
  | data values =>
    have count : ((integers a (.data values)).map (BitVec.ofInt 32)).length = a.dataDepth := by
      rw [List.length_map, integers, List.length_map, List.length_reverse, full values rfl]
    refine ⟨fun none => ?_, count.le.trans few⟩
    rw [none, List.length_nil] at count
    omega
  | _ => exact ⟨List.cons_ne_nil _ _, Nat.one_le_of_lt (by decide : 0 < 65533)⟩

variable {uint32 : ℤ → Option Word} (converts : Converts uint32) (l : Addresses)
include converts

private theorem client_op_eq (narrow : a.dataWidth ≤ 32) (narrow' : a.samplingPeriodWidth ≤ 32)
    (s : Statement) :
    clientOp a uint32 l s = .ok (op a l s) := by
  have all : ∀ {ks : List ℤ}, (∀ k ∈ ks, 0 ≤ k ∧ k < 2 ^ 32) →
      ks.mapM uint32 = some (ks.map (BitVec.ofInt 32)) := by
    intro ks fit
    induction ks with
    | nil => rfl
    | cons k ks ih =>
      obtain ⟨nonneg, small⟩ := fit k List.mem_cons_self
      rw [List.mapM_cons, converts.fits k nonneg small, ih fun j there => fit j (List.mem_cons_of_mem k there)]
      rfl
  have fit := all (integers_fit narrow narrow' s)
  have list : (sent a s).elim (fun v => [v]) id = integers a s := by cases s <;> rfl
  unfold clientOp remoteOp
  simp only [list, fit]
  rfl

private theorem client_ops_eq (narrow : a.dataWidth ≤ 32) (narrow' : a.samplingPeriodWidth ≤ 32)
    (session : List Statement) :
    session.mapM (clientOp a uint32 l) = .ok (session.map (op a l)) := by
  induction session with
  | nil => rfl
  | cons s session ih =>
    rw [List.mapM_cons, client_op_eq converts l narrow narrow', ih]
    rfl

end Calls

section Cycles

variable {a : Arguments} {κ μ ν ρ : Type*} {csr : CsrStorage (a.dataWidth + 1) κ}
  {memory : MemoryPort a.dataWidth a.dataDepth μ} {playback : ReadPort a.dataWidth a.dataDepth ν}
  {gate : ℕ → Bool}

def register (d : Board a κ μ ν ρ) :
    Core.MountedRegister.Board a.dataWidth a.dataDepth κ μ Unit := ⟨d.awg.data, d.late, ()⟩

private theorem wait_succ (n : ℕ) (d : Board a κ μ ν ρ) :
    d.wait csr memory playback gate (n + 1) =
      (d.wait csr memory playback gate n).step csr memory playback gate none :=
  Function.iterate_succ_apply' _ n d

private theorem data_step (written : Option (Port × Word)) (d : Board a κ μ ν ρ) :
    (d.step csr memory playback gate written).awg.data =
      edge csr memory false (Board.busWord written) none d.awg.data := by
  match written with
  | none | some (.data, _) | some (.samplingPeriodCycles, _) | some (.alwaysOn, _)
  | some (.softwareTrigger, _) => rfl

private theorem data_wait (n : ℕ) (d : Board a κ μ ν ρ) :
    (d.wait csr memory playback gate n).awg.data = idle csr memory false n d.awg.data := by
  induction n with
  | zero => rfl
  | succ n ih =>
    rw [wait_succ, data_step, ih, idle_succ]
    rfl

private theorem register_tick (written : Option (Port × Word)) (d : Board a κ μ ν ρ) :
    register (d.tick csr memory playback gate written) =
      (register d).tick csr memory false (Board.busWord written) := by
  have data : (Board.wait csr memory playback gate (5 + d.late 0)
      (d.step csr memory playback gate written)).awg.data = _ := data_wait _ _
  rw [data_step] at data
  show (⟨_, _, ()⟩ : Core.MountedRegister.Board _ _ κ μ Unit) = ⟨_, _, ()⟩
  congr 1

variable (csr memory playback) in
def Traced (s : State a.dataWidth a.dataDepth κ μ ν) (d : Board a κ μ ν ρ) : Prop :=
  ∃ w, d.awg = a.history csr memory playback s w d.cycle

private theorem traced_next {s : State a.dataWidth a.dataDepth κ μ ν} {d d' : Board a κ μ ν ρ}
    {i : Input}
    (traced : Traced csr memory playback s d) (cycle : d'.cycle = d.cycle + 1)
    (next : d'.awg = a.next csr memory playback i d.awg) : Traced csr memory playback s d' := by
  obtain ⟨w, is⟩ := traced
  refine ⟨Function.update w d.cycle i, ?_⟩
  have before : a.history csr memory playback s (Function.update w d.cycle i) d.cycle = d.awg := by
    rw [is]
    exact run_congr fun u earlier => Function.update_of_ne earlier.ne _ _
  have edge : a.history csr memory playback s (Function.update w d.cycle i) (d.cycle + 1) =
      a.next csr memory playback (Function.update w d.cycle i d.cycle)
        (a.history csr memory playback s (Function.update w d.cycle i) d.cycle) := rfl
  rw [next, cycle, edge, before, Function.update_self]

structure Settings where
  values : List ℚ
  samplingPeriodCycles : ℕ
  alwaysOn : ℕ

variable (a) in
def Settings.after (x : Settings) : Statement → Settings
  | .data values => { x with values := values }
  | .samplingPeriodCycles value =>
    { x with samplingPeriodCycles := a.samplingPeriodCycles.assigned value }
  | .alwaysOn value => { x with alwaysOn := Awg.alwaysOn.assigned value }
  | .softwareTrigger => x

variable (csr memory playback) in
structure Assigned (s : State a.dataWidth a.dataDepth κ μ ν) (x : Settings) (d : Board a κ μ ν ρ) : Prop where
  traced : Traced csr memory playback s d
  samplingPeriodCycles : d.awg.samplingPeriodCycles = x.samplingPeriodCycles
  alwaysOn : d.awg.alwaysOn = x.alwaysOn

section Scalars

variable {s : State a.dataWidth a.dataDepth κ μ ν} {x : Settings} {d : Board a κ μ ν ρ}
  (assigned : Assigned csr memory playback s x d)
include assigned

variable (gate) in
private theorem assigned_step {written : Option (Port × Word)}
    (other : ∀ p word, written = some (p, word) → p = .data ∨ p = .softwareTrigger) :
    Assigned csr memory playback s x (d.step csr memory playback gate written) := by
  have plain : (d.step csr memory playback gate written).awg = a.next csr memory playback
      ⟨gate d.cycle, d.strobe, none, Board.busWord written⟩ d.awg := by
    match written with
    | none | some (.data, _) | some (.softwareTrigger, _) => rfl
    | some (.samplingPeriodCycles, word) | some (.alwaysOn, word) =>
      rcases other _ word rfl with same | same <;> cases same
  refine ⟨traced_next assigned.traced rfl plain, ?_, ?_⟩
  · rw [plain]
    exact assigned.samplingPeriodCycles
  · rw [plain]
    exact assigned.alwaysOn

variable (gate) in
private theorem assigned_wait (n : ℕ) :
    Assigned csr memory playback s x (d.wait csr memory playback gate n) := by
  induction n with
  | zero => exact assigned
  | succ n ih =>
    rw [wait_succ]
    exact assigned_step gate ih nofun

variable (gate) in
private theorem assigned_tick {written : Option (Port × Word)}
    (other : ∀ p word, written = some (p, word) → p = .data ∨ p = .softwareTrigger) :
    Assigned csr memory playback s x (d.tick csr memory playback gate written) := by
  have step := assigned_step gate assigned other
  obtain ⟨traced, samplingPeriodCycles, alwaysOn⟩ := assigned_wait gate step (5 + d.late 0)
  exact ⟨traced, samplingPeriodCycles, alwaysOn⟩

private theorem assigned_scalar (narrow : a.samplingPeriodWidth ≤ 32) {st : Statement}
    (scalar : st.port = .samplingPeriodCycles ∨ st.port = .alwaysOn) {k : ℤ} (sent : integers a st = [k]) :
    Assigned csr memory playback s (x.after a st)
      (d.tick csr memory playback gate (some (st.port, BitVec.ofInt 32 k))) := by
  have word {w : ℕ} (slim : w ≤ 32) : trunc w (BitVec.ofInt 32 k).toNat = trunc w k := by
    rw [BitVec.toNat_ofInt]
    exact trunc_trunc slim k
  have step : Assigned csr memory playback s (x.after a st)
      (d.step csr memory playback gate (some (st.port, BitVec.ofInt 32 k))) := by
    cases st with
    | data values => rcases scalar with same | same <;> cases same
    | softwareTrigger => rcases scalar with same | same <;> cases same
    | samplingPeriodCycles value =>
      obtain rfl := List.singleton_inj.mp sent
      have next : (d.step csr memory playback gate (some (.samplingPeriodCycles, BitVec.ofInt 32
          ((AnyRegister.number a.samplingPeriodCycles).encoded value)))).awg = a.next csr memory playback
          ⟨gate d.cycle, d.strobe, some (.samplingPeriodCycles value), none⟩ d.awg := by
        simp only [Board.step, Board.stored, word narrow]
        rfl
      refine ⟨traced_next assigned.traced rfl next, ?_, ?_⟩
      · rw [Statement.port, next]
        rfl
      · rw [Statement.port, next]
        exact assigned.alwaysOn
    | alwaysOn value =>
      obtain rfl := List.singleton_inj.mp sent
      have next : (d.step csr memory playback gate (some (.alwaysOn, BitVec.ofInt 32
          ((AnyRegister.bool Awg.alwaysOn).encoded value)))).awg = a.next csr memory playback
          ⟨gate d.cycle, d.strobe, some (.alwaysOn value), none⟩ d.awg := by
        simp only [Board.step, Board.stored, word (by decide : Awg.alwaysOn.width ≤ 32)]
        rfl
      refine ⟨traced_next assigned.traced rfl next, ?_, ?_⟩
      · rw [Statement.port, next]
        exact assigned.samplingPeriodCycles
      · rw [Statement.port, next]
        rfl
  obtain ⟨traced, samplingPeriodCycles, alwaysOn⟩ := assigned_wait gate step (5 + d.late 0)
  exact ⟨traced, samplingPeriodCycles, alwaysOn⟩

end Scalars

def nowhere : Bus Unit where
  load _ d := (0, d)
  store _ _ d := d
  fetch _ d := some (0, d)
  handed _ := 0
  mapped _ _ _ := rfl

section Accesses

variable (l : Addresses) (rest : Bus ρ)

private theorem store_word (p : Port) (word : Word) (d : Board a κ μ ν ρ) :
    (awgBus csr memory playback gate l rest).store (l.word p) word d =
      d.tick csr memory playback gate (some (p, word)) := by
  simp only [awgBus, l.decoder_word p]

variable (csr memory playback gate) in
private theorem register_write (values : ℕ → Word) (entries : List ℕ) (d : Board a κ μ ν ρ) :
    register (entries.foldl (writeEntry (awgBus csr memory playback gate l rest) (l.word .data) values) d) =
      entries.foldl (writeEntry (mount csr memory false (l.word .data) nowhere) (l.word .data) values)
        (register d) := by
  induction entries generalizing d with
  | nil => rfl
  | cons i entries ih =>
    rw [List.foldl_cons, List.foldl_cons, ih]
    congr 1
    simp only [writeEntry, store_word, Core.MountedRegister.store_mount, register_tick]
    rfl

variable (csr memory playback gate) in
def performed (st : Statement) (d : Board a κ μ ν ρ) : Board a κ μ ν ρ :=
  (access (awgBus csr memory playback gate l rest) (op a l st) d).2

private theorem performed_scalar {st : Statement} {k : ℤ} (sent : integers a st = [k])
    (d : Board a κ μ ν ρ) :
    performed csr memory playback gate l rest st d =
      d.tick csr memory playback gate (some (st.port, BitVec.ofInt 32 k)) := by
  simp only [performed, op, sent, List.map_singleton, access, writeValues, List.length_singleton,
    if_neg (Nat.lt_irrefl 1), store_word]
  rfl

variable (csr memory playback) in
/-- The module between two accesses: its registers and its memory have their settings. -/
structure Settled (s : State a.dataWidth a.dataDepth κ μ ν) (x : Settings) (d : Board a κ μ ν ρ) : Prop
    extends Assigned csr memory playback s x d where
  quiet : Quiet csr d.awg.data
  stores : Stores memory x.values d.awg.data
  strobe : d.strobe = false

omit l rest in
private theorem data_tick (written : Option (Port × Word)) (d : Board a κ μ ν ρ) :
    (d.tick csr memory playback gate written).awg.data =
      settle csr memory false (Board.busWord written) (5 + d.late 0) d.awg.data :=
  congrArg Core.MountedRegister.Board.register (register_tick written d)

omit l rest in
private theorem strobe_tick (written : Option (Port × Word)) (d : Board a κ μ ν ρ) :
    (d.tick csr memory playback gate written).strobe = false := by
  have more : 5 + d.late 0 = (4 + d.late 0) + 1 := by omega
  show (Board.wait csr memory playback gate (5 + d.late 0) _).strobe = false
  rw [more, wait_succ]
  rfl

omit l rest in
private theorem mem_tick {written : Option (Port × Word)} (other : Board.busWord written = none)
    {d : Board a κ μ ν ρ} (quiet : Quiet csr d.awg.data) :
    memory.mem (d.tick csr memory playback gate written).awg.data.memory =
      memory.mem d.awg.data.memory := by
  rw [data_tick, other]
  have first := quiet_edge memory false quiet
  exact (quiet_idle memory false first.quiet _).mem.trans first.mem

variable {s : State a.dataWidth a.dataDepth κ μ ν} {x : Settings} {d : Board a κ μ ν ρ}
  (settled : Settled csr memory playback s x d)
include settled

private theorem settled_scalar (narrow : a.samplingPeriodWidth ≤ 32) {st : Statement}
    (scalar : st.port ≠ .data) :
    Settled csr memory playback s (x.after a st) (performed csr memory playback gate l rest st d) := by
  obtain ⟨k, sent⟩ : ∃ k, integers a st = [k] := by
    cases st with
    | data values => exact absurd rfl scalar
    | _ => exact ⟨_, rfl⟩
  rw [performed_scalar l rest sent]
  have other : Board.busWord (some (st.port, BitVec.ofInt 32 k)) = none := by
    cases st with
    | data values => exact absurd rfl scalar
    | _ => rfl
  have kept : (x.after a st).values = x.values := by
    cases st with
    | data values => exact absurd rfl scalar
    | _ => rfl
  refine ⟨?_, ?_, ?_, strobe_tick _ d⟩
  · cases st with
    | data values => exact absurd rfl scalar
    | softwareTrigger =>
      apply assigned_tick gate settled.toAssigned
      rintro p word ⟨⟩
      exact .inr rfl
    | samplingPeriodCycles value => exact assigned_scalar settled.toAssigned narrow (.inl rfl) sent
    | alwaysOn value => exact assigned_scalar settled.toAssigned narrow (.inr rfl) sent
  · rw [data_tick]
    exact quiet_settle _ _ _
  · intro i word is
    rw [kept] at is
    rw [mem_tick other settled.quiet]
    exact settled.stores i word is

variable (a) in
def dataWord (values : List ℚ) (i : ℕ) : Word :=
  ((integers a (.data values)).map (BitVec.ofInt 32)).getD i 0

omit settled in
private theorem data_word (values : List ℚ) {i : ℕ} {word : BitVec a.dataWidth}
    (narrow : a.dataWidth ≤ 32)
    (is : (a.assignedWords values)[i]? = some word) :
    (dataWord a values i).setWidth a.dataWidth = word := by
  rw [dataWord, List.getD_eq_getElem?_getD, integers, List.map_map, List.getElem?_map]
  rw [Arguments.assignedWords, List.getElem?_map] at is
  obtain ⟨v, there, rfl⟩ := Option.map_eq_some_iff.mp is
  rw [there]
  apply BitVec.eq_of_toNat_eq
  show (BitVec.setWidth a.dataWidth (BitVec.ofInt 32 ((AnyRegister.fixedPoint a.data).encoded v))).toNat = _
  rw [BitVec.toNat_setWidth, BitVec.toNat_ofInt, Arguments.encode, BitVec.toNat_ofInt]
  exact trunc_trunc narrow _

omit settled in
variable (gate) in
private theorem assigned_write (assigned : Assigned csr memory playback s x d) (values : ℕ → Word)
    (entries : List ℕ) (nonempty : entries ≠ []) :
    Assigned csr memory playback s x (entries.foldl
      (writeEntry (awgBus csr memory playback gate l rest) (l.word .data) values) d) ∧
    (entries.foldl (writeEntry (awgBus csr memory playback gate l rest) (l.word .data)
      values) d).strobe = false := by
  have data (word : Word) : ∀ p other, some (Port.data, word) = some (p, other) →
      p = .data ∨ p = .softwareTrigger := by
    rintro p other ⟨⟩
    exact .inl rfl
  induction entries generalizing d with
  | nil => exact absurd rfl nonempty
  | cons i entries ih =>
    have index := assigned_tick gate assigned (data (indexWord i))
    have next := assigned_tick gate index (data (values i <<< 1))
    rw [List.foldl_cons]
    simp only [writeEntry, store_word]
    cases entries with
    | nil => exact ⟨next, strobe_tick _ _⟩
    | cons j entries => exact ih next (List.cons_ne_nil j entries)

private theorem settled_data (narrow : a.dataWidth ≤ 31) (deep : 2 ≤ a.dataDepth)
    (indices : a.dataDepth ≤ 2 ^ a.dataWidth) {values : List ℚ} (full : values.length = a.dataDepth) :
    Settled csr memory playback s (x.after a (.data values))
      (performed csr memory playback gate l rest (.data values) d) := by
  have count : ((integers a (.data values)).map (BitVec.ofInt 32)).length = a.dataDepth := by
    rw [List.length_map, integers, List.length_map, List.length_reverse, full]
  have loop : performed csr memory playback gate l rest (.data values) d =
      (List.range a.dataDepth).foldl (writeEntry (awgBus csr memory playback gate l rest) (l.word .data)
        (dataWord a values)) d := by
    simp only [performed, op, access, writeValues, count, if_pos (Nat.lt_of_succ_le deep)]
    rfl
  have alone := register_write csr memory playback gate l rest (dataWord a values)
    (List.range a.dataDepth) d
  rw [← loop] at alone
  have positive : 0 < a.dataDepth := by omega
  obtain ⟨assigned, strobe⟩ := assigned_write gate l rest settled.toAssigned (dataWord a values)
    (List.range a.dataDepth) (by rw [Ne, List.range_eq_nil]; omega)
  obtain ⟨mem, represents, stored, -⟩ := write_loop (l.word .data) nowhere narrow
    indices (dataWord a values) le_rfl positive (register d)
  rw [← alone] at represents
  rw [← loop] at assigned strobe
  refine ⟨⟨assigned.traced, assigned.samplingPeriodCycles, assigned.alwaysOn⟩, represents.quiet, ?_, strobe⟩
  intro i word is
  have inside : i < a.dataDepth := by
    obtain ⟨below, -⟩ := List.getElem?_eq_some_iff.mp is
    rw [Arguments.assignedWords, List.length_map, List.length_reverse] at below
    exact below.trans_eq full
  have entry : memory.mem (performed csr memory playback gate l rest (.data values) d).awg.data.memory i =
      mem i := congrFun represents.mem i
  rw [entry, stored i inside, data_word values (narrow.trans (by decide)) is]

variable (csr memory playback gate) in
def after (session : List Statement) (d : Board a κ μ ν ρ) : Board a κ μ ν ρ :=
  session.foldl (fun d st => performed csr memory playback gate l rest st d) d

variable (gate) in
private theorem session_settled (narrow : a.dataWidth ≤ 31) (narrow' : a.samplingPeriodWidth ≤ 32)
    (deep : 2 ≤ a.dataDepth) (indices : a.dataDepth ≤ 2 ^ a.dataWidth) {session : List Statement}
    (full : ∀ values, .data values ∈ session → values.length = a.dataDepth) :
    Settled csr memory playback s (session.foldl (Settings.after a) x)
      (after csr memory playback gate l rest session d) := by
  induction session generalizing x d with
  | nil => exact settled
  | cons st session ih =>
    refine ih ?_ fun values there => full values (List.mem_cons_of_mem st there)
    by_cases data : st.port = .data
    · cases st with
      | data values =>
        exact settled_data l rest settled narrow deep indices (full values List.mem_cons_self)
      | _ => cases data
    · exact settled_scalar l rest settled narrow' data

omit settled in
private theorem accesses_after (session : List Statement) (d : Board a κ μ ν ρ) :
    (accesses (awgBus csr memory playback gate l rest) (session.map (op a l)) d).2 =
      after csr memory playback gate l rest session d := by
  induction session generalizing d with
  | nil => rfl
  | cons st session ih => exact ih _

omit settled in
private theorem complete_after (few : a.dataDepth ≤ 65533) (deep : 2 ≤ a.dataDepth)
    {session : List Statement}
    (full : ∀ values, .data values ∈ session → values.length = a.dataDepth) {buffer : ℕ → Word}
    {labels : List Label} {c : Config (Board a κ μ ν ρ)}
    (complete : Complete (awgBus csr memory playback gate l rest) (session.map (op a l)) buffer d labels c) :
    c.server.device = after csr memory playback gate l rest session d := by
  have admissible : ∀ q ∈ session.map (op a l), Admissible q := by
    intro q member
    obtain ⟨st, there, rfl⟩ := List.mem_map.mp member
    exact op_admissible l few deep fun values is => full values (is ▸ there)
  obtain ⟨-, device⟩ := execute_all_accesses (awgBus csr memory playback gate l rest) admissible
    (s := (Config.connected buffer d).server) rfl
  rw [complete_executed complete, device]
  exact accesses_after l rest session d

end Accesses

section Play

variable {s : State a.dataWidth a.dataDepth κ μ ν} {x : Settings} {d : Board a κ μ ν ρ}

variable (csr memory playback gate) in
def triggered (d : Board a κ μ ν ρ) (n : ℕ) : Board a κ μ ν ρ :=
  (d.step csr memory playback gate (some (.softwareTrigger, 0))).wait csr memory playback gate n

variable (gate) in
def continued (w : ℕ → Input) (cycle u : ℕ) : Input :=
  if u < cycle then w u else ⟨gate u, decide (u = cycle + 1), none, none⟩

private theorem triggered_history {w : ℕ → Input}
    (is : d.awg = a.history csr memory playback s w d.cycle)
    (strobe : d.strobe = false) (n : ℕ) :
    (triggered csr memory playback gate d n).awg =
      a.history csr memory playback s (continued gate w d.cycle) (d.cycle + 1 + n) ∧
    (triggered csr memory playback gate d n).strobe = decide (n = 0) ∧
    (triggered csr memory playback gate d n).cycle = d.cycle + 1 + n := by
  induction n with
  | zero =>
    refine ⟨?_, rfl, rfl⟩
    have before : a.history csr memory playback s (continued gate w d.cycle) d.cycle = d.awg := by
      rw [is]
      exact run_congr fun u earlier => if_pos earlier
    have input : continued gate w d.cycle d.cycle = ⟨gate d.cycle, d.strobe, none, none⟩ := by
      rw [continued, if_neg (Nat.lt_irrefl _), strobe, decide_eq_false (by omega)]
    show a.next csr memory playback ⟨gate d.cycle, d.strobe, none, none⟩ d.awg =
      a.next csr memory playback (continued gate w d.cycle d.cycle) _
    rw [input, ← before]
    rfl
  | succ n ih =>
    obtain ⟨awg, strobed, cycle⟩ := ih
    rw [triggered, wait_succ, ← triggered]
    refine ⟨?_, rfl, ?_⟩
    · have input : continued gate w d.cycle (d.cycle + 1 + n) =
          ⟨gate (d.cycle + 1 + n), decide (n = 0), none, none⟩ := by
        rw [continued, if_neg (by omega)]
        congr 1
        exact decide_eq_decide.mpr ⟨by omega, by omega⟩
      show a.next csr memory playback ⟨gate (triggered csr memory playback gate d n).cycle,
        (triggered csr memory playback gate d n).strobe, none, none⟩ _ =
          a.next csr memory playback (continued gate w d.cycle (d.cycle + 1 + n)) _
      rw [input, cycle, strobed, awg]
      rfl
    · show (triggered csr memory playback gate d n).cycle + 1 = d.cycle + 1 + (n + 1)
      rw [cycle]
      omega

variable {data : Register a.dataWidth a.dataDepth κ μ} {port : ν} (deep : 2 ≤ a.dataDepth)
  (created : a.create data port = .ok s) (settled : Settled csr memory playback s x d)
  (full : x.values.length = a.dataDepth) (slow : 1 ≤ x.samplingPeriodCycles) (off : x.alwaysOn = 0)
  (rested : d.awg.pulseburst.busy = false) (dark : ∀ u, d.cycle ≤ u → gate u = false)
include deep created settled full slow off rested dark

/-- From its strobe on, a software trigger at rest plays the values, and keeps the last one. -/
private theorem plays (e : ℕ) :
    playback.datR (triggered csr memory playback gate d (e + 2)).awg.port =
    a.encode (x.values.getD (min (e / (x.samplingPeriodCycles + 2)) (a.dataDepth - 1)) 0) := by
  obtain ⟨w, is⟩ := settled.traced
  obtain ⟨v, waveform⟩ : ∃ v, v = continued gate w d.cycle := ⟨_, rfl⟩
  have trace (n : ℕ) : (triggered csr memory playback gate d n).awg =
      a.history csr memory playback s v (d.cycle + 1 + n) := by
    rw [waveform]
    exact (triggered_history is settled.strobe n).1
  have before : a.history csr memory playback s v d.cycle = d.awg := by
    rw [is, waveform]
    exact run_congr fun u earlier => if_pos earlier
  have other : ∀ p word, some (Port.softwareTrigger, (0 : Word)) = some (p, word) →
      p = .data ∨ p = .softwareTrigger := by
    rintro p word ⟨⟩
    exact .inr rfl
  have kept (n : ℕ) : Assigned csr memory playback s x (triggered csr memory playback gate d n) :=
    assigned_wait gate (assigned_step gate settled.toAssigned other) n
  have input (u : ℕ) (after : d.cycle ≤ u) :
      v u = ⟨false, decide (u = d.cycle + 1), none, none⟩ := by
    rw [waveform, continued, if_neg (Nat.not_lt_of_le after), dark u after]
  -- the strobe comes in the next cycle, where the generator is still at rest
  obtain ⟨t, cycle⟩ : ∃ t, t = d.cycle + 1 := ⟨_, rfl⟩
  rw [← cycle] at trace
  have start := trace 0
  have unchanged : Unchanged csr memory d.awg.data (triggered csr memory playback gate d 0).awg.data := by
    show Unchanged csr memory d.awg.data
      (d.step csr memory playback gate (some (.softwareTrigger, 0))).awg.data
    rw [data_step]
    exact quiet_edge memory false settled.quiet
  have idle : (a.burst csr memory playback s v t).busy = false := by
    have quiet : a.trigger (v d.cycle) (a.history csr memory playback s v d.cycle) = false := by
      rw [input d.cycle le_rfl, Arguments.trigger, before, settled.alwaysOn, off,
        decide_eq_false (by omega)]
      rfl
    rw [cycle]
    refine Migen.BurstWindows.next_idle ?_ quiet
    show (a.history csr memory playback s v d.cycle).pulseburst.busy = false
    rw [before]
    exact rested
  have held : Held csr memory playback s v x.values (x.samplingPeriodCycles + 2) t (t + e + 2) := by
    refine held_of_silent ?_ ?_ ?_ ?_
    · rw [← Nat.add_zero t, ← start]
      exact unchanged.quiet
    · rw [← Nat.add_zero t, ← start]
      intro i word is
      rw [unchanged.mem]
      exact settled.stores i word is
    · rw [← Nat.add_zero t, ← start, (kept 0).samplingPeriodCycles]
    · intro u after _
      rw [input u (by omega)]
      exact ⟨rfl, rfl⟩
  have strobed : a.trigger (v t) (a.history csr memory playback s v t) = true := by
    rw [input t (by omega), decide_eq_true cycle]
    rfl
  have restedBefore : (a.burst csr memory playback s v (t - 1)).busy = false := by
    rw [cycle, Nat.add_sub_cancel]
    show (a.history csr memory playback s v d.cycle).pulseburst.busy = false
    rw [before]
    exact rested
  obtain ⟨first, last, -⟩ := playback_in_order a deep csr memory playback data port s created v x.values
    full (x.samplingPeriodCycles + 2) (by omega) t (t + e + 2) held idle (.inr restedBefore) strobed
  rw [trace]
  have value (i : ℕ) (inside : i < a.dataDepth) : x.values[i]? = some (x.values.getD i 0) := by
    rw [List.getD_eq_getElem?_getD, List.getElem?_eq_getElem (by omega)]
    rfl
  by_cases playing : e < a.dataDepth * (x.samplingPeriodCycles + 2)
  · have place : e / (x.samplingPeriodCycles + 2) < a.dataDepth :=
      Nat.div_lt_of_lt_mul (by rwa [Nat.mul_comm] at playing)
    have split := Nat.div_add_mod' e (x.samplingPeriodCycles + 2)
    have short := Nat.mod_lt e (by omega : 0 < x.samplingPeriodCycles + 2)
    have shown := first _ _ _ (value _ place) short (by rw [split]; omega)
    rw [split] at shown
    rw [Nat.min_eq_left (by omega), ← shown]
    show playback.datR (a.history csr memory playback s v (t + (e + 2))).port =
      playback.datR (a.history csr memory playback s v (t + 2 + e)).port
    rw [Nat.add_comm e 2, Nat.add_assoc]
  · have past : a.dataDepth ≤ e / (x.samplingPeriodCycles + 2) :=
      (Nat.le_div_iff_mul_le (by omega)).mpr (Nat.not_lt.mp playing)
    have quiet (u : ℕ) (after : t + a.dataDepth * (x.samplingPeriodCycles + 2) ≤ u) :
        a.trigger (v u) (a.history csr memory playback s v u) = false := by
      have positive : 0 < a.dataDepth * (x.samplingPeriodCycles + 2) := by positivity
      obtain ⟨n, rfl⟩ := Nat.exists_eq_add_of_le (le_trans (Nat.le_add_right t _) after)
      rw [input _ (by omega), Arguments.trigger, ← trace, (kept n).alwaysOn, off,
        decide_eq_false (by omega)]
      rfl
    have shown := (last (t + 1 + e) (by omega) (by omega) (fun u after _ => quiet u after) _
      (value (a.dataDepth - 1) (by omega))).2
    rw [Nat.min_eq_right (by omega), ← shown]
    show playback.datR (a.history csr memory playback s v (t + (e + 2))).port =
      playback.datR (a.history csr memory playback s v (t + 1 + e + 1)).port
    congr 3
    omega

end Play

private theorem wait_late (n : ℕ) (late : ℕ → ℕ) (d : Board a κ μ ν ρ) :
    Board.wait csr memory playback gate n { d with late := late } =
      { d.wait csr memory playback gate n with late := late } := by
  induction n with
  | zero => rfl
  | succ n ih =>
    rw [wait_succ, ih, wait_succ]
    rfl

private theorem wait_triggered (l : Addresses) (rest : Bus ρ) (n : ℕ) (d : Board a κ μ ν ρ) :
    (Board.wait csr memory playback gate n
      (performed csr memory playback gate l rest .softwareTrigger d)).awg =
      (triggered csr memory playback gate d (d.late 0 + 3 + n + 2)).awg := by
  have sum : d.late 0 + 3 + n + 2 = n + (5 + d.late 0) := by omega
  have call : performed csr memory playback gate l rest .softwareTrigger d =
      d.tick csr memory playback gate (some (.softwareTrigger, BitVec.ofInt 32 0)) :=
    performed_scalar l rest (show integers a .softwareTrigger = [0] from rfl) d
  rw [call, Board.tick, wait_late, triggered, sum]
  show ((Board.step csr memory playback gate none)^[n]
    ((Board.step csr memory playback gate none)^[5 + d.late 0] _)).awg = _
  rw [← Function.iterate_add_apply]
  rfl

end Cycles

/-- The module from Python to its output. After any session of assignments, between two accesses of
which the generator is at rest, a software trigger plays the values that were assigned last, each of
them for the sampling period that was assigned last, and the output keeps the last value. -/
theorem plays_after_session {κ μ ν ρ : Type*} (a : Arguments) (narrow : a.dataWidth ≤ 31)
    (narrow' : a.samplingPeriodWidth ≤ 32) (deep : 2 ≤ a.dataDepth) (few : a.dataDepth ≤ 65533)
    (indices : a.dataDepth ≤ 2 ^ a.dataWidth) (csr : CsrStorage (a.dataWidth + 1) κ)
    (memory : MemoryPort a.dataWidth a.dataDepth μ) (playback : ReadPort a.dataWidth a.dataDepth ν)
    (gate : ℕ → Bool) (l : Addresses) (rest : Bus ρ) {uint32 : ℤ → Option Word} (converts : Converts uint32)
    {data : Register a.dataWidth a.dataDepth κ μ} {port : ν} {s : State a.dataWidth a.dataDepth κ μ ν}
    (created : a.create data port = .ok s) {x : Settings} {d : Board a κ μ ν ρ}
    (settled : Settled csr memory playback s x d) (buffer : ℕ → Word) {session : List Statement}
    (full : ∀ values, .data values ∈ session → values.length = a.dataDepth) {y : Settings}
    (last : session.foldl (Settings.after a) x = y) (all : y.values.length = a.dataDepth)
    (slow : 1 ≤ y.samplingPeriodCycles) (off : y.alwaysOn = 0)
    (rested : (after csr memory playback gate l rest session d).awg.pulseburst.busy = false)
    (dark : ∀ u, (after csr memory playback gate l rest session d).cycle ≤ u → gate u = false) :
    ∃ ops, (session ++ [Statement.softwareTrigger]).mapM (clientOp a uint32 l) = .ok ops ∧
      (∃ labels c, Complete (awgBus csr memory playback gate l rest) ops buffer d labels c) ∧
      ∀ labels c, Complete (awgBus csr memory playback gate l rest) ops buffer d labels c → ∀ n,
        playback.datR (c.server.device.wait csr memory playback gate n).awg.port =
          a.encode (y.values.getD (min (((after csr memory playback gate l rest session d).late 0 + 3 + n) /
            (y.samplingPeriodCycles + 2)) (a.dataDepth - 1)) 0) := by
  have whole : ∀ values, .data values ∈ session ++ [Statement.softwareTrigger] → values.length = a.dataDepth := by
    intro values member
    rcases List.mem_append.mp member with inside | alone
    · exact full values inside
    · cases List.mem_singleton.mp alone
  refine ⟨(session ++ [Statement.softwareTrigger]).map (op a l),
    client_ops_eq converts l (narrow.trans (by decide)) narrow' _, ?_, ?_⟩
  · apply complete_exists
    intro q member
    obtain ⟨st, there, rfl⟩ := List.mem_map.mp member
    exact answered_of_admissible (op_admissible l few deep fun values is => whole values (is ▸ there))
  · intro labels c complete n
    have ending := session_settled gate l rest settled narrow narrow' deep indices full
    rw [last] at ending
    have device : c.server.device = performed csr memory playback gate l rest .softwareTrigger
        (after csr memory playback gate l rest session d) := by
      rw [complete_after l rest few deep whole complete, after, List.foldl_append]
      rfl
    rw [device, wait_triggered]
    exact plays deep created ending all slow off rested dark _

section Demonstration

def twoAddresses : Addresses where
  address
    | .data => 0x40000000
    | .samplingPeriodCycles => 0x40000004
    | .alwaysOn => 0x40000008
    | .softwareTrigger => 0x4000000c
  small p := by cases p <;> decide
  apart p q same := by cases p <;> cases q <;> first | rfl | cases same

def twoBoard : Board twoValues (BitVec 3 × Bool) ((ℕ → BitVec 2) × BitVec (adrWidth 2)) (BitVec 2) Unit :=
  ⟨twoPlayer, false, 0, fun _ => 0, ()⟩

private theorem two_settled : Settled (csrStorage 3) (writeFirst 2 2) (dataRegister 2 2) twoPlayer
    ⟨[1 / 3, 2 / 3], 1, 0⟩ twoBoard where
  traced := ⟨playOnce, rfl⟩
  samplingPeriodCycles := rfl
  alwaysOn := rfl
  quiet := ⟨rfl, rfl, rfl, rfl, rfl⟩
  stores := stores_initial rfl rfl
  strobe := rfl

def reassigned : List Statement := [.data [2 / 3, 1], .samplingPeriodCycles 5]

theorem plays_after_session_two : ∃ ops labels c,
    Complete (awgBus (csrStorage 3) (writeFirst 2 2) (dataRegister 2 2) (fun _ => false) twoAddresses nowhere)
      ops (fun _ => 0) twoBoard labels c ∧
    ∀ n, (dataRegister 2 2).datR (c.server.device.wait (csrStorage 3) (writeFirst 2 2) (dataRegister 2 2)
      (fun _ => false) n).awg.port = twoValues.encode ([2 / 3, 1].getD (min ((3 + n) / 5) 1) 0) := by
  have rested : (after (csrStorage 3) (writeFirst 2 2) (dataRegister 2 2) (fun _ => false) twoAddresses
      nowhere reassigned twoBoard).awg.pulseburst.busy = false := by
    rfl
  have full : ∀ values, .data values ∈ reassigned → values.length = 2 := by
    intro values member
    simp only [reassigned, List.mem_cons, List.not_mem_nil, or_false, reduceCtorEq,
      Statement.data.injEq] at member
    rw [member]
    rfl
  have last : reassigned.foldl (Settings.after twoValues) ⟨[1 / 3, 2 / 3], 1, 0⟩ = ⟨[2 / 3, 1], 3, 0⟩ := rfl
  obtain ⟨ops, -, ⟨labels, c, complete⟩, every⟩ := plays_after_session twoValues (by decide) (by decide) le_rfl
    (by decide) (by decide) (csrStorage 3) (writeFirst 2 2) (dataRegister 2 2) (fun _ => false) twoAddresses
    nowhere Core.OffsetLaw.wrapping_converts rfl two_settled (fun _ => 0)
    full last rfl (by decide) rfl rested fun _ _ => rfl
  exact ⟨ops, labels, c, complete, every labels c complete⟩

end Demonstration

end Pypga.Modules.AwgSession
