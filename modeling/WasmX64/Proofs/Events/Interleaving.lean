import WasmX64.Proofs.Traps.Numbering
import WasmX64.Report.Stats

/-!
# Interleaved compilations

Functions are compiled side by side, so that an observer is told of their events interleaved.
The starts of instructions in the stream of one function have increasing numbers, whether its
compilation succeeds or not.  So no two accesses are at one place, there is one way to sort
them, and statistics do not depend on the interleaving.
-/

/-!
## Statistics, one event at a time

An observer of compilations counts the events as it is told of them and keeps the accesses in
the order of their arrival.  A snapshot has the counts, and the accesses sorted by place; the
sort need not be a stable one.  What is counted depends on which events have been told, not on
their order, and the statistics of a list of events are a snapshot behind its last one.
-/

namespace WasmX64

namespace Event

def isFunctionStart (event : Event) : Bool :=
  match event.what with
  | .functionStart _ => true
  | _ => false

/-- The code that a function has at its end. -/
def codeBytes (event : Event) : Nat :=
  match event.what with
  | .functionEnd _ => event.offset
  | _ => 0

/-- The opcode of an instruction or marker that starts. -/
def lowers? (event : Event) : Option Opcode :=
  match event.what with
  | .instrStart _ => some event.op
  | _ => none

/-- The kind of a block that starts. -/
def opens? (event : Event) : Option BlockKind :=
  match event.what with
  | .controlStart kind => some kind
  | _ => none

/-- The kind of a machine-level construct that starts. -/
def machine? (event : Event) : Option MachineKind :=
  match event.what with
  | .machineStart machine => some machine.kind
  | _ => none

end Event

def increment {α : Type} [DecidableEq α] (counts : α → Nat) (item : α) : α → Nat :=
  fun other => if other = item then counts other + 1 else counts other

/-- What an observer has counted. -/
structure StatsPass where
  functions : Nat := 0
  codeBytes : Nat := 0
  instructions : Opcode → Nat := fun _ => 0
  controls : BlockKind → Nat := fun _ => 0
  machine : MachineKind → Nat := fun _ => 0
  /-- The accesses in the order of their arrival. -/
  accesses : List Access := []

namespace StatsPass

/-- The observer is told of an event. -/
def observe (pass : StatsPass) (event : Event) : StatsPass :=
  match event.what with
  | .functionStart _ => { pass with functions := pass.functions + 1 }
  | .functionEnd _ => { pass with codeBytes := pass.codeBytes + event.offset }
  | .controlStart kind => { pass with controls := increment pass.controls kind }
  | .instrStart _ =>
    { pass with
      instructions := increment pass.instructions event.op
      accesses := pass.accesses ++ (Stats.access? event).toList }
  | .machineStart machine => { pass with machine := increment pass.machine machine.kind }
  | _ => pass

structure Counts (before : StatsPass) (events : List Event) (after : StatsPass) : Prop where
  functions : after.functions = before.functions + events.countP Event.isFunctionStart
  codeBytes : after.codeBytes = before.codeBytes + (events.map Event.codeBytes).sum
  instructions : ∀ op, after.instructions op =
    before.instructions op + (events.filterMap Event.lowers?).count op
  controls : ∀ kind, after.controls kind =
    before.controls kind + (events.filterMap Event.opens?).count kind
  machine : ∀ kind, after.machine kind =
    before.machine kind + (events.filterMap Event.machine?).count kind
  accesses : after.accesses = before.accesses ++ events.filterMap Stats.access?

theorem Counts.trans {first second third : StatsPass} {before behind : List Event}
    (left : Counts first before second) (right : Counts second behind third) :
    Counts first (before ++ behind) third := by
  constructor
  case functions => rw [right.functions, left.functions, List.countP_append, Nat.add_assoc]
  case codeBytes =>
    rw [right.codeBytes, left.codeBytes, List.map_append, List.sum_append, Nat.add_assoc]
  case instructions =>
    intro op
    rw [right.instructions, left.instructions, List.filterMap_append, List.count_append,
      Nat.add_assoc]
  case controls =>
    intro kind
    rw [right.controls, left.controls, List.filterMap_append, List.count_append, Nat.add_assoc]
  case machine =>
    intro kind
    rw [right.machine, left.machine, List.filterMap_append, List.count_append, Nat.add_assoc]
  case accesses => rw [right.accesses, left.accesses, List.filterMap_append, List.append_assoc]

theorem increment_eq {α : Type} [DecidableEq α] (counts : α → Nat) (item other : α) :
    increment counts item other = counts other + [item].count other := by
  unfold increment
  rw [List.count_singleton]
  by_cases same : other = item
  · simp [same]
  · simp [same, Ne.symm same]

theorem counts_observe (pass : StatsPass) (event : Event) :
    Counts pass [event] (pass.observe event) := by
  obtain ⟨func, instr, op, depth, offset, what⟩ := event
  cases what with
  | instrStart taken =>
    constructor
    case accesses =>
      change pass.accesses ++ (Stats.access? _).toList = _
      rw [List.filterMap_cons]
      cases Stats.access? ⟨func, instr, op, depth, offset, .instrStart taken⟩ <;> rfl
    case instructions => exact increment_eq _ _
    all_goals simp [observe, Event.isFunctionStart, Event.codeBytes, Event.opens?,
      Event.machine?, List.filterMap_cons]
  | controlStart kind =>
    constructor
    case controls => exact increment_eq _ _
    all_goals simp [observe, Event.isFunctionStart, Event.codeBytes, Event.lowers?,
      Event.machine?, Stats.access?, List.filterMap_cons]
  | machineStart machine =>
    constructor
    case machine => exact increment_eq _ _
    all_goals simp [observe, Event.isFunctionStart, Event.codeBytes, Event.lowers?,
      Event.opens?, Stats.access?, List.filterMap_cons]
  | _ =>
    constructor
    all_goals simp [observe, Event.isFunctionStart, Event.codeBytes, Event.lowers?,
      Event.opens?, Event.machine?, Stats.access?, List.filterMap_cons]

theorem counts (pass : StatsPass) (events : List Event) :
    Counts pass events (events.foldl observe pass) := by
  induction events generalizing pass with
  | nil => exact ⟨rfl, rfl, fun _ => rfl, fun _ => rfl, fun _ => rfl, (List.append_nil _).symm⟩
  | cons event rest ih => exact (counts_observe pass event).trans (ih _)

end StatsPass

namespace Stats

/-- How often an item has been counted. -/
def total {α : Type} [DecidableEq α] (counts : List (α × Nat)) (item : α) : Nat :=
  ((counts.filter fun entry => entry.1 = item).map Prod.snd).sum

theorem total_tally {α : Type} [DecidableEq α] (key : α → Nat) (items : List α) (item : α) :
    total (tally key items) item = items.count item := by
  rw [← (List.mergeSort_perm items fun left right => key left ≤ key right).count_eq item, tally]
  generalize items.mergeSort _ = sorted
  induction sorted with
  | nil => rfl
  | cons first rest ih =>
    rw [List.count_cons, ← ih, List.foldr_cons]
    generalize rest.foldr _ [] = counted
    cases counted with
    | nil => by_cases same : first = item <;> simp [total, same]
    | cons entry others =>
      obtain ⟨known, count⟩ := entry
      by_cases again : known = first
      · subst again
        by_cases same : known = item
        · simp [total, same]
          omega
        · simp [total, same]
      · by_cases same : first = item
        · subst same
          simp [total, again]
          omega
        · simp [total, same, again]

theorem codeBytes_ofEvents (events : List Event) :
    (ofEvents events).codeBytes = (events.map Event.codeBytes).sum := by
  have sums : ∀ total, events.foldl (fun total event =>
      match event.what with
      | .functionEnd _ => total + event.offset
      | _ => total) total = total + (events.map Event.codeBytes).sum := by
    induction events with
    | nil => exact fun _ => rfl
    | cons event rest ih =>
      intro total
      rw [List.foldl_cons, ih, List.map_cons, List.sum_cons, ← Nat.add_assoc]
      congr 1
      unfold Event.codeBytes
      cases event.what <;> rfl
  exact (sums 0).trans (Nat.zero_add _)

theorem comesBefore_iff (left right : Access) :
    comesBefore left right = true ↔ left.func.toNat < right.func.toNat ∨
      left.func = right.func ∧ left.instr ≤ right.instr := by
  simp [comesBefore, UInt32.lt_iff_toNat_lt]

theorem comesBefore_trans (first second third : Access)
    (left : comesBefore first second = true) (right : comesBefore second third = true) :
    comesBefore first third = true := by
  rw [comesBefore_iff, ← UInt32.toNat_inj] at *
  omega

theorem comesBefore_total (left right : Access) :
    (comesBefore left right || comesBefore right left) = true := by
  rw [Bool.or_eq_true, comesBefore_iff, comesBefore_iff, ← UInt32.toNat_inj, ← UInt32.toNat_inj]
  omega

end Stats

/-- Statistics are a snapshot of what has been counted.  The accesses are sorted, those of one
place in any order. -/
structure StatsPass.Snapshot (pass : StatsPass) (stats : Stats) : Prop where
  functions : stats.functions = pass.functions
  codeBytes : stats.codeBytes = pass.codeBytes
  instructions : ∀ op, Stats.total stats.instructions op = pass.instructions op
  controls : ∀ kind, Stats.total stats.controls kind = pass.controls kind
  machine : ∀ kind, Stats.total stats.machine kind = pass.machine kind
  accesses : stats.accesses.Perm pass.accesses
  sorted : stats.accesses.Pairwise fun left right => Stats.comesBefore left right = true

theorem Stats.ofEvents_snapshot (events : List Event) :
    (events.foldl StatsPass.observe {}).Snapshot (ofEvents events) := by
  have counts := StatsPass.counts {} events
  constructor
  case functions => exact (counts.functions.trans (Nat.zero_add _)).symm
  case codeBytes =>
    rw [codeBytes_ofEvents, counts.codeBytes]
    exact (Nat.zero_add _).symm
  case instructions =>
    intro op
    rw [counts.instructions, Nat.zero_add]
    exact total_tally _ _ op
  case controls =>
    intro kind
    rw [counts.controls, Nat.zero_add]
    exact total_tally _ _ kind
  case machine =>
    intro kind
    rw [counts.machine, Nat.zero_add]
    exact total_tally _ _ kind
  case accesses =>
    rw [counts.accesses]
    exact List.mergeSort_perm _ _
  case sorted => exact List.pairwise_mergeSort comesBefore_trans comesBefore_total _

/-!
## Streams of events

The events of one function and their interleaving with those of others.
-/

/-- An instruction or marker starts. -/
def Event.isInstrStart (event : Event) : Bool :=
  match event.what with
  | .instrStart _ => true
  | _ => false

/-- Events of a function.  The starts of its instructions have increasing numbers below a
limit. -/
structure Climbs (func : UInt32) (limit : Int) (events : List Event) : Prop where
  func : ∀ event ∈ events, event.func = func
  sorted : (events.filter Event.isInstrStart).Pairwise fun earlier later =>
    earlier.instr < later.instr
  below : ∀ event ∈ events.filter Event.isInstrStart, event.instr < limit

namespace Climbs

variable {func : UInt32} {limit : Int} {events added : List Event}

theorem nil (func : UInt32) (limit : Int) : Climbs func limit [] :=
  ⟨by simp, .nil, by simp⟩

theorem mono (climbs : Climbs func limit events) {higher : Int} (most : limit ≤ higher) :
    Climbs func higher events :=
  ⟨climbs.func, climbs.sorted, fun event member => Int.lt_of_lt_of_le (climbs.below event member) most⟩

theorem append (climbs : Climbs func limit events) (funcs : ∀ event ∈ added, event.func = func)
    (between : ∀ event ∈ added, event.isInstrStart = false) : Climbs func limit (events ++ added) := by
  have none : added.filter Event.isInstrStart = [] :=
    List.filter_eq_nil_iff.mpr fun event member => by simp [between event member]
  refine ⟨fun event member => ?_, ?_, ?_⟩
  · exact (List.mem_append.mp member).elim (climbs.func event) (funcs event)
  · rw [List.filter_append, none, List.append_nil]
    exact climbs.sorted
  · rw [List.filter_append, none, List.append_nil]
    exact climbs.below

theorem start (climbs : Climbs func limit events) {event : Event} (own : event.func = func)
    (number : event.instr = limit) (starts : event.isInstrStart = true) :
    Climbs func (limit + 1) (events ++ [event]) := by
  have only : [event].filter Event.isInstrStart = [event] := by simp [starts]
  refine ⟨fun other member => ?_, ?_, ?_⟩
  · refine (List.mem_append.mp member).elim (climbs.func other) fun last => ?_
    rw [List.mem_singleton.mp last, own]
  · rw [List.filter_append, only]
    refine List.pairwise_append.mpr ⟨climbs.sorted, List.pairwise_singleton _ _, ?_⟩
    intro other member last new
    rw [List.mem_singleton.mp new, number]
    exact climbs.below other member
  · rw [List.filter_append, only]
    intro other member
    rcases List.mem_append.mp member with old | new
    · exact Int.lt_trans (climbs.below other old) (Int.lt_succ _)
    · rw [List.mem_singleton.mp new, number]
      exact Int.lt_succ _

/-- Going on within an instruction. -/
theorem proceed {recording : Recording} {subject : Subject} {before after : Compilation}
    (climbs : Climbs subject.index limit before.events.toList)
    (proceeds : Compilation.Proceeds recording subject before after) :
    Climbs subject.index limit after.events.toList := by
  obtain ⟨added, all, named⟩ := proceeds.events
  rw [all]
  refine climbs.append (fun event member => (named event member).1) fun event member => ?_
  have allowed := (named event member).2.2.2
  unfold Event.isInstrStart
  cases what : event.what with
  | instrStart taken =>
    rw [what] at allowed
    cases recording <;> cases allowed
  | _ => rfl

end Climbs

namespace Compile

open Course

variable {subject : Subject} {state : Compilation} {block : Block} {outer : List Block}

/-- How a run may end: the starts of instructions have risen, up to the number that has been
reached unless there is a fault. -/
def Mounts {α : Type} (subject : Subject) : EStateM.Result Fault Compilation α → Prop
  | .ok _ after => Climbs subject.index after.instr after.events.toList
  | .error _ after => ∃ limit, Climbs subject.index limit after.events.toList

theorem round_mounts (opened : state.blocks = block :: outer)
    (climbs : Climbs subject.index state.instr state.events.toList) :
    Mounts subject ((next block >>= fun (instr, op) => step instr op) subject state) := by
  rw [bind_run, next_run opened]
  dsimp only
  let middle : Compilation :=
    { state with blocks := { block with pending := block.pending.tail } :: outer }
  have blocks : middle.blocks = { block with pending := block.pending.tail } :: outer := rfl
  by_cases dead : block.reach = .unreachable ∧ block.course.first.2 ≠ .finish ∧
      block.course.first.2 ≠ .otherwise
  · rw [step_skipped blocks dead]
    exact climbs.mono (Int.le_add_of_nonneg_right (Int.natCast_nonneg _))
  · rw [step_run blocks dead]
    have steady : Obeys (Unbounded Steady) .blocks 0 1 (lower block.course.first.2
        (block.course.first.1.getD { op := block.course.first.2 }) >>= fun _ => demandSound) :=
      (Obeys.lower Recording.blocks_loud _ _ (fun _ _ => trivial) (.inl rfl)).andThen fun _ => .demandSound
    let begins : Event := (noted middle block.course.first.2).event subject
      (.instrStart block.course.first.1)
    let started : Compilation :=
      { noted middle block.course.first.2 with events := state.events.push begins }
    have starts : Climbs subject.index (state.instr + 1) started.events.toList := by
      rw [Array.toList_push]
      exact climbs.start rfl rfl rfl
    have proceeds := steady subject started
    rw [final] at proceeds
    cases ran : (lower block.course.first.2
        (block.course.first.1.getD { op := block.course.first.2 }) >>= fun _ => demandSound)
        subject started with
    | error fault lowered =>
      rw [ran] at proceeds
      exact ⟨_, starts.proceed proceeds⟩
    | ok value lowered =>
      rw [ran] at proceeds
      have number : lowered.instr = state.instr := proceeds.instr
      change Climbs subject.index (lowered.instr + 1) (lowered.events.push _).toList
      rw [Array.toList_push, number]
      exact (starts.proceed proceeds).append
        (fun event member => List.mem_singleton.mp member ▸ rfl)
        fun event member => List.mem_singleton.mp member ▸ rfl

theorem steps_mounts (climbs : Climbs subject.index state.instr state.events.toList) (fuel : Nat) :
    Mounts subject (steps fuel subject state) := by
  induction fuel generalizing state with
  | zero => exact climbs
  | succ fuel ih =>
    cases opened : state.blocks with
    | nil =>
      rw [steps_of_closed _ opened]
      exact climbs
    | cons block outer =>
      have round := round_mounts opened climbs
      rw [Nat.add_comm, steps_add, bind_run, steps_one opened]
      cases ran : (next block >>= fun (instr, op) => step instr op) subject state with
      | error fault after =>
        rw [ran] at round
        exact round
      | ok value middle =>
        rw [ran] at round
        exact ih round

/-- Before the body no instruction starts. -/
theorem begin_mounts : Mounts subject (begin subject {}) := by
  let opened : Compilation :=
    { events := #[Compilation.event subject {} (.functionStart subject.function)] }
  have starts : ∀ limit, Climbs subject.index limit opened.events.toList := by
    intro limit
    exact (Climbs.nil subject.index limit).append
      (fun event member => List.mem_singleton.mp member ▸ rfl)
      fun event member => List.mem_singleton.mp member ▸ rfl
  have proceeds := (obeys_places : Steady .nothing places) subject opened
  have split : begin subject {} = (places >>= fun frame => do
      modify fun (state : Compilation) => { state with instr := 0 }
      return frame) subject opened := begin_run
  rw [final] at proceeds
  rw [split, bind_run]
  cases ran : places subject opened with
  | error fault after =>
    rw [ran] at proceeds
    exact ⟨0, (starts 0).proceed proceeds⟩
  | ok frame after =>
    rw [ran] at proceeds
    have kept : Climbs subject.index 0 after.events.toList := (starts 0).proceed proceeds
    exact kept

/-- Nor does one behind the body. -/
theorem conclude_climbs (frame : Nat) {limit : Int}
    (climbs : Climbs subject.index limit state.events.toList) :
    Climbs subject.index limit (final (conclude frame) subject state).events.toList := by
  have proceeds := (obeys_reports frame : Steady .nothing _) subject state
  rw [final] at proceeds
  rw [final, conclude_run, bind_run]
  cases ran : reports frame subject state with
  | error fault after =>
    rw [ran] at proceeds
    exact climbs.proceed proceeds
  | ok traps after =>
    rw [ran] at proceeds
    change Climbs subject.index limit (after.events.push _).toList
    rw [Array.toList_push]
    exact (climbs.proceed proceeds).append (fun event member => List.mem_singleton.mp member ▸ rfl)
      fun event member => List.mem_singleton.mp member ▸ rfl

end Compile

/-- In the stream of events of a function the starts of instructions rise, whether its compilation
succeeds or not. -/
theorem compileFunction_climbs (module : Option Module) (host : Host) (index : UInt32) :
    ∃ limit, Climbs index limit (compileFunction module host index).events.toList := by
  unfold compileFunction
  cases made : Subject.of module host index with
  | error fault => exact ⟨0, .nil index 0⟩
  | ok subject =>
    obtain rfl : subject.index = index := by
      cases module with
      | none => cases made
      | some module => exact Subject.index_of made
    have begins := @Compile.begin_mounts subject
    dsimp only
    rw [Compile.function_rounds (Nat.le_refl _), Nat.sub_self, Compile.bind_run]
    cases begun : Compile.begin subject {} with
    | error fault after =>
      rw [begun] at begins
      exact begins
    | ok frame start =>
      rw [begun] at begins
      have goes := Compile.steps_mounts begins (Compile.rounds subject)
      dsimp only
      rw [Compile.bind_run]
      cases ran : Compile.steps (Compile.rounds subject) subject start with
      | error fault after =>
        rw [ran] at goes
        exact goes
      | ok done state =>
        rw [ran] at goes
        have concludes := Compile.conclude_climbs frame goes
        rw [Compile.final] at concludes
        refine ⟨state.instr, ?_⟩
        have concluding : (Compile.steps 0 >>= fun _ => Compile.conclude frame) subject state =
            Compile.conclude frame subject state := rfl
        dsimp only
        rw [concluding]
        cases ends : Compile.conclude frame subject state with
        | ok compiled after =>
          rw [ends] at concludes
          exact concludes
        | error fault after =>
          rw [ends] at concludes
          exact concludes

/-- The events of several streams in an order that keeps the order of each stream. -/
inductive Interleaves : List (List Event) → List Event → Prop
  | done {streams : List (List Event)} (told : ∀ stream ∈ streams, stream = []) :
      Interleaves streams []
  | tell (before : List (List Event)) {after : List (List Event)} {event : Event}
      {rest events : List Event}
      (next : Interleaves (before ++ rest :: after) events) :
      Interleaves (before ++ (event :: rest) :: after) (event :: events)

namespace Interleaves

variable {streams : List (List Event)} {events : List Event}

/-- Every event is told once. -/
theorem perm (interleaves : Interleaves streams events) : events.Perm streams.flatten := by
  induction interleaves with
  | done told => rw [List.flatten_eq_nil_iff.mpr told]
  | tell _ _ ih =>
    rw [List.flatten_append, List.flatten_cons, List.cons_append]
    refine (List.Perm.cons _ ih).trans ?_
    rw [List.flatten_append, List.flatten_cons]
    exact List.perm_middle.symm

/-- One stream is told before all others. -/
theorem early (interleaves : Interleaves streams events) (stream : List Event) :
    Interleaves (stream :: streams) (stream ++ events) := by
  induction stream with
  | nil =>
    induction interleaves with
    | done told => exact .done (by simpa using told)
    | @tell before after event rest events _ ih => exact .tell ([] :: before) ih
  | cons event rest ih => exact .tell [] ih

/-- One stream is told after all others. -/
theorem late (interleaves : Interleaves streams events) (stream : List Event) :
    Interleaves (stream :: streams) (events ++ stream) := by
  induction interleaves with
  | @done streams told =>
    have quiet := early (.done told) stream
    rwa [List.append_nil] at quiet
  | @tell before after event rest events _ ih => exact .tell (stream :: before) ih

end Interleaves

/-- An access is at an earlier place than another. -/
def Access.Precedes (left right : Access) : Prop :=
  left.func < right.func ∨ left.func = right.func ∧ left.instr < right.instr

/-- Two accesses are at different places. -/
def Access.Apart (left right : Access) : Prop := left.Precedes right ∨ right.Precedes left

instance : Std.Symm Access.Apart := ⟨fun _ _ => Or.symm⟩

theorem Stats.access?_some {event : Event} {access : Access} (made : access? event = some access) :
    event.isInstrStart = true ∧ access.func = event.func ∧ access.instr = event.instr := by
  unfold access? at made
  unfold Event.isInstrStart
  split at made
  · rename_i instr what
    rw [what]
    refine ⟨rfl, ?_⟩
    dsimp only at made
    split at made
    all_goals cases made
    all_goals exact ⟨rfl, rfl⟩
  · cases made

/-- No two accesses of a function are at one place. -/
theorem Climbs.accesses {func : UInt32} {limit : Int} {events : List Event}
    (climbs : Climbs func limit events) :
    (∀ access ∈ events.filterMap Stats.access?, access.func = func) ∧
      (events.filterMap Stats.access?).Pairwise Access.Precedes := by
  have funcs : ∀ access ∈ events.filterMap Stats.access?, access.func = func := by
    intro access member
    obtain ⟨event, told, made⟩ := List.mem_filterMap.mp member
    rw [(Stats.access?_some made).2.1, climbs.func event told]
  refine ⟨funcs, ?_⟩
  have starts : events.filterMap Stats.access? =
      (events.filter Event.isInstrStart).filterMap Stats.access? := by
    rw [List.filterMap_filter]
    refine List.filterMap_congr fun event _ => ?_
    cases made : Stats.access? event with
    | none => simp
    | some access => rw [if_pos (Stats.access?_some made).1]
  rw [starts]
  refine List.pairwise_filterMap.mpr (climbs.sorted.imp_of_mem fun first second below => ?_)
  intro left leftMade right rightMade
  obtain ⟨_, leftFunc, leftInstr⟩ := Stats.access?_some leftMade
  obtain ⟨_, rightFunc, rightInstr⟩ := Stats.access?_some rightMade
  refine .inr ⟨?_, leftInstr ▸ rightInstr ▸ below⟩
  rw [leftFunc, rightFunc, climbs.func _ (List.mem_filter.mp first).1,
    climbs.func _ (List.mem_filter.mp second).1]

/-- The same counts and the same accesses. -/
structure Stats.Agree (left right : Stats) : Prop where
  functions : left.functions = right.functions
  codeBytes : left.codeBytes = right.codeBytes
  instructions : ∀ op, total left.instructions op = total right.instructions op
  controls : ∀ kind, total left.controls kind = total right.controls kind
  machine : ∀ kind, total left.machine kind = total right.machine kind
  accesses : left.accesses = right.accesses

theorem Access.sorted_unique {accesses sorted : List Access} (places : sorted.Pairwise Precedes)
    (perm : accesses.Perm sorted)
    (ordered : accesses.Pairwise fun left right => Stats.comesBefore left right = true) :
    accesses = sorted := by
  have placed : sorted.Pairwise fun left right => Stats.comesBefore left right = true := by
    refine places.imp fun precedes => ?_
    rw [Stats.comesBefore_iff]
    exact precedes.imp_right fun same => ⟨same.1, Int.le_of_lt same.2⟩
  refine List.Perm.eq_of_pairwise (fun left right first second before behind => ?_) ordered placed
    perm
  by_contra different
  have everywhere : sorted.Pairwise Apart := places.imp .inl
  have apart := everywhere.forall (perm.mem_iff.mp first) second different
  rw [Stats.comesBefore_iff, ← UInt32.toNat_inj] at before behind
  simp only [Apart, Precedes, UInt32.lt_iff_toNat_lt, ← UInt32.toNat_inj] at apart
  omega

section Function

variable {modules : UInt32 → Option Module} {hosts : UInt32 → Host} {indices : List UInt32}

def functionStream (modules : UInt32 → Option Module) (hosts : UInt32 → Host) (index : UInt32) :
    List Event :=
  (compileFunction (modules index) (hosts index) index).events.toList

/-- The accesses of some functions, in the order of the functions and of their instructions. -/
def placedAccesses (modules : UInt32 → Option Module) (hosts : UInt32 → Host)
    (indices : List UInt32) : List Access :=
  (indices.mergeSort fun left right => left ≤ right).flatMap fun index =>
    (functionStream modules hosts index).filterMap Stats.access?

theorem placedAccesses_places (distinct : indices.Nodup) :
    (placedAccesses modules hosts indices).Pairwise Access.Precedes := by
  have climbs : ∀ index, ∃ limit, Climbs index limit (functionStream modules hosts index) :=
    fun index => compileFunction_climbs _ _ _
  have sorted : (indices.mergeSort fun left right => left ≤ right).Pairwise (· < ·) := by
    have ordered := @List.pairwise_mergeSort UInt32 (fun left right => left ≤ right)
      (by simpa using fun _ _ _ => UInt32.le_trans) (by simpa using UInt32.le_total) indices
    refine (ordered.and ((List.mergeSort_perm _ _).nodup_iff.mpr distinct)).imp ?_
    rintro left right ⟨most, different⟩
    exact UInt32.lt_of_le_of_ne (by simpa using most) different
  refine List.pairwise_flatMap.mpr ⟨fun index _ => ?_, sorted.imp fun below => ?_⟩
  · obtain ⟨limit, climbs⟩ := climbs index
    exact climbs.accesses.2
  · intro left first right second
    obtain ⟨_, earlier⟩ := climbs _
    obtain ⟨_, later⟩ := climbs _
    refine .inl ?_
    rw [earlier.accesses.1 left first, later.accesses.1 right second]
    exact below

theorem placedAccesses_perm :
    (placedAccesses modules hosts indices).Perm
      ((indices.map (functionStream modules hosts)).flatten.filterMap Stats.access?) := by
  rw [List.filterMap_flatten, List.map_map]
  exact (List.mergeSort_perm _ _).flatMap_right _

theorem StatsPass.Snapshot.accesses_eq (distinct : indices.Nodup) {events : List Event}
    (interleaves : Interleaves (indices.map (functionStream modules hosts)) events) {stats : Stats}
    (snapshot : (events.foldl StatsPass.observe {}).Snapshot stats) :
    stats.accesses = placedAccesses modules hosts indices := by
  refine Access.sorted_unique (placedAccesses_places distinct) ?_ snapshot.sorted
  refine snapshot.accesses.trans ?_
  rw [(StatsPass.counts {} events).accesses]
  exact (interleaves.perm.filterMap _).trans placedAccesses_perm.symm

/-- Statistics do not depend on how compilations interleave.  Whichever way the streams of events
of different functions are interleaved, snapshots of what an observer has counted behind the last
event have the same counts, and the same accesses in the order of functions and instructions.
The statistics of the list of events are one of these snapshots. -/
theorem statistics_interleave (distinct : indices.Nodup) {events others : List Event}
    (first : Interleaves (indices.map (functionStream modules hosts)) events)
    (second : Interleaves (indices.map (functionStream modules hosts)) others) :
    (events.foldl StatsPass.observe {}).Snapshot (Stats.ofEvents events) ∧
      ∀ left right, (events.foldl StatsPass.observe {}).Snapshot left →
        (others.foldl StatsPass.observe {}).Snapshot right →
        left.Agree right ∧ left.accesses = placedAccesses modules hosts indices := by
  refine ⟨Stats.ofEvents_snapshot events, fun left right early late => ⟨?_, ?_⟩⟩
  · have same := first.perm.trans second.perm.symm
    have before := StatsPass.counts {} events
    have behind := StatsPass.counts {} others
    constructor
    case functions =>
      rw [early.functions, late.functions, before.functions, behind.functions, same.countP_eq]
    case codeBytes =>
      rw [early.codeBytes, late.codeBytes, before.codeBytes, behind.codeBytes,
        (same.map Event.codeBytes).sum_nat]
    case instructions =>
      intro op
      rw [early.instructions, late.instructions, before.instructions, behind.instructions,
        (same.filterMap Event.lowers?).count_eq]
    case controls =>
      intro kind
      rw [early.controls, late.controls, before.controls, behind.controls,
        (same.filterMap Event.opens?).count_eq]
    case machine =>
      intro kind
      rw [early.machine, late.machine, before.machine, behind.machine,
        (same.filterMap Event.machine?).count_eq]
    case accesses => rw [early.accesses_eq distinct first, late.accesses_eq distinct second]
  · exact early.accesses_eq distinct first

end Function

/-- A function that puts its parameter into a global, and one that takes it from there. -/
def sharedGlobal : Module where
  __ := Module.declaring #[⟨[.i32], []⟩]
  globals := #[⟨.i32, true, default⟩]
  functions := #[
    { name := "put", type := 0, locals := []
      body := [{ op := .localGet }, { op := .globalSet }] },
    { name := "take", type := 0, locals := [.i32]
      body := [{ op := .globalGet }, { op := .localSet, index := 1 }] }]

/-- One function before the other, and the other way round. -/
theorem statistics_interleave_sharedGlobal :
    let put := functionStream (fun _ => some sharedGlobal) (fun _ => {}) 0
    let take := functionStream (fun _ => some sharedGlobal) (fun _ => {}) 1
    ∀ left right, ((put ++ take).foldl StatsPass.observe {}).Snapshot left →
      ((take ++ put).foldl StatsPass.observe {}).Snapshot right →
      left.Agree right ∧ left.accesses =
        [⟨0, 0, false, 0, false⟩, ⟨0, 1, true, 0, true⟩, ⟨1, 0, true, 0, false⟩,
          ⟨1, 1, false, 1, true⟩] := by
  intro put take left right early late
  have none : Interleaves [] [] := .done (by simp)
  have behind : Interleaves [put, take] (put ++ take) := by
    simpa using (none.early take).early put
  have before : Interleaves [put, take] (take ++ put) := by
    simpa using (none.early take).late put
  have distinct : [(0 : UInt32), 1].Nodup := by decide
  obtain ⟨agree, accesses⟩ :=
    (@statistics_interleave (fun _ => some sharedGlobal) (fun _ => {}) _ distinct _ _ behind
      before).2 left right early late
  refine ⟨agree, accesses.trans ?_⟩
  rw [placedAccesses, List.mergeSort_of_pairwise (by decide)]
  decide +kernel

end WasmX64
