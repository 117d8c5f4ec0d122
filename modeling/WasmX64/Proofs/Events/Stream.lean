import WasmX64.Proofs.Compile.Progress
import WasmX64.Proofs.Traps.Numbering

/-!
# Streams of events

What an observer of a compilation sees: the start and the end of the function, between them
the instructions and markers that are not skipped as dead code, each with its own start and
end, and inside of these the machine-level constructs and the blocks.  The streams are well
bracketed on every level, and code never shrinks while they are told.
-/

/-!
## The journal of an action

Code only grows, so the offsets of events go up.  A machine-level construct is told by its
start and its end with nothing between them; what emits no such construct records nothing, and
control events nest like the blocks they tell of.
-/

namespace WasmX64

/-- The offsets of events go up between two offsets. -/
inductive Ascends : Nat → List Event → Nat → Prop
  | nil {low high : Nat} (below : low ≤ high) : Ascends low [] high
  | cons {low high : Nat} {event : Event} {rest : List Event} (below : low ≤ event.offset)
      (next : Ascends event.offset rest high) : Ascends low (event :: rest) high

namespace Ascends

variable {low middle high : Nat} {first second : List Event}

theorem append (left : Ascends low first middle) (right : Ascends middle second high) :
    Ascends low (first ++ second) high := by
  induction left with
  | nil below =>
    cases right with
    | nil above => exact .nil (Nat.le_trans below above)
    | cons above next => exact .cons (Nat.le_trans below above) next
  | cons below _ ih => exact .cons below (ih right)

theorem one {event : Event} (below : low ≤ event.offset) (above : event.offset ≤ high) :
    Ascends low [event] high :=
  .cons below (.nil above)

theorem from_low {event : Event} (ascends : Ascends low first high) (member : event ∈ first) :
    low ≤ event.offset := by
  induction ascends with
  | nil => cases member
  | cons below _ ih =>
    cases member with
    | head => exact below
    | tail _ inside => exact Nat.le_trans below (ih inside)

/-- Offsets never go down. -/
theorem sorted (ascends : Ascends low first high) :
    first.Pairwise (fun earlier later => earlier.offset ≤ later.offset) := by
  induction ascends with
  | nil => exact .nil
  | cons _ next ih => exact .cons (fun _ member => next.from_low member) ih

end Ascends

/-- The events of machine-level constructs, the end of each right behind its start. -/
inductive Paired : List Event → Prop
  | nil : Paired []
  | cons {event : MachineEvent} {start stop : Event} {rest : List Event}
      (starts : start.what = .machineStart event) (stops : stop.what = .machineEnd event)
      (next : Paired rest) : Paired (start :: stop :: rest)

theorem Paired.append {first second : List Event} (left : Paired first) (right : Paired second) :
    Paired (first ++ second) := by
  induction left with
  | nil => exact right
  | cons starts stops _ ih => exact .cons starts stops ih

/-- The events that an action with some recording adds. -/
def Recording.Shape : Recording → List Event → Prop
  | .nothing, events => events = []
  | .machine, events => Paired events
  | .blocks, _ => True

theorem Recording.Shape.append {recording : Recording} {first second : List Event}
    (left : recording.Shape first) (right : recording.Shape second) :
    recording.Shape (first ++ second) := by
  cases recording with
  | nothing => exact List.append_eq_nil_iff.mpr ⟨left, right⟩
  | machine => exact Paired.append left right
  | blocks => trivial

theorem Recording.Shape.nil (recording : Recording) : recording.Shape [] := by
  cases recording with
  | nothing => rfl
  | machine => exact Paired.nil
  | blocks => trivial

/-- A compilation has gone on from another and told of it in events of some shape. -/
def Compilation.Logs (shape : List Event → Prop) (before after : Compilation) : Prop :=
  ∃ added, after.events.toList = before.events.toList ++ added ∧ shape added ∧
    Ascends before.output.code.size added after.output.code.size

namespace Compilation.Logs

variable {shape other whole : List Event → Prop} {first second third : Compilation}

theorem grown {recording : Recording} (events : second.events = first.events)
    (grows : first.output.code.size ≤ second.output.code.size) :
    Logs recording.Shape first second :=
  ⟨[], by rw [events, List.append_nil], .nil recording, .nil grows⟩

theorem compose (left : Logs shape first second) (right : Logs other second third)
    (joins : ∀ before behind, shape before → other behind → whole (before ++ behind)) :
    Logs whole first third := by
  obtain ⟨earlier, start, before, low⟩ := left
  obtain ⟨later, rest, behind, high⟩ := right
  refine ⟨earlier ++ later, ?_, joins _ _ before behind, low.append high⟩
  rw [rest, start, List.append_assoc]

theorem mono (logs : Logs shape first second) (weaker : ∀ events, shape events → other events) :
    Logs other first second := by
  obtain ⟨added, all, shaped, ascends⟩ := logs
  exact ⟨added, all, weaker added shaped, ascends⟩

end Compilation.Logs

namespace Compile

open Compilation (Logs)

variable {α β : Type} {recording : Recording} {subject : Subject} {state : Compilation}

/-- An action that, if it ends without a fault, has told of itself as it may. -/
def Journal ⦃α : Type⦄ (recording : Recording) (action : Compile α) : Prop :=
  ∀ subject before, Ensures action subject before fun _ after =>
    Logs recording.Shape before after

theorem logs_record (subject : Subject) (state : Compilation) (what : Happening) :
    Logs (· = [state.event subject what]) state
      { state with events := state.events.push (state.event subject what) } :=
  ⟨_, Array.toList_push .., rfl, .one (Nat.le_refl _) (Nat.le_refl _)⟩

namespace Journal

theorem bind {action : Compile α} {next : α → Compile β} (first : Journal recording action)
    (second : ∀ value, Journal recording (next value)) : Journal recording (action >>= next) := by
  intro subject before
  refine (first subject before).andThen ?_
  intro value middle left
  refine (second value subject middle).mono ?_
  intro _ after right
  exact left.compose right fun _ _ => .append

theorem change {change : Compilation → α × Compilation}
    (events : ∀ state, (change state).2.events = state.events)
    (grows : ∀ state, state.output.code.size ≤ (change state).2.output.code.size) :
    Journal recording (modifyGet change) := by
  intro subject before
  rw [ensures_modifyGet]
  exact .grown (events before) (grows before)

theorem note {change : Compilation → Compilation}
    (events : ∀ state, (change state).events = state.events)
    (grows : ∀ state, state.output.code.size ≤ (change state).output.code.size) :
    Journal recording (modify change) :=
  Journal.change events grows

theorem throw {fault : Fault} : Journal recording (throw fault : Compile α) :=
  fun _ _ => ensures_throw

theorem transfer (source : Layout) {action : TransferM Unit} (calm : action.Calm) :
    Journal recording (transfer source action) := by
  intro subject before
  refine (transfer_adds source calm).mono ?_
  rintro _ _ ⟨output, adds, rfl⟩
  exact .grown rfl adds.extends.size

theorem machine (event : MachineEvent) {action : Compile Unit} (loud : recording ≠ .nothing)
    (inside : Journal .nothing action) : Journal recording (machine event action) := by
  intro subject before
  unfold Compile.machine
  rw [ensures_bind]
  rintro _ _ ⟨⟩
  refine (inside subject _).andThen ?_
  rintro _ middle ⟨added, all, nothing, ascends⟩ _ _ ⟨⟩
  obtain rfl : added = [] := nothing
  have inner : Logs (· = []) _ middle := ⟨[], all, rfl, ascends⟩
  have starts : Logs (· = [_]) before middle :=
    (logs_record _ _ _).compose inner (by rintro _ _ rfl rfl; rfl)
  refine starts.compose (logs_record _ _ _) ?_
  rintro _ _ rfl rfl
  cases recording with
  | nothing => exact absurd rfl loud
  | machine => exact .cons rfl rfl .nil
  | blocks => trivial

theorem block {what : Happening} : Journal .blocks (record what) := by
  rintro subject before _ _ ⟨⟩
  exact (logs_record _ _ what).mono fun _ _ => trivial

end Journal

instance : Framed Journal (fun _ _ => True) where
  pure _ := fun _ _ => ensures_pure.mpr (.grown rfl (Nat.le_refl _))
  throw _ := Journal.throw
  bind := Journal.bind
  mono journal _ := journal
  look each _ := Journal.bind (fun _ _ => ensures_get.mpr (.grown rfl (Nat.le_refl _)))
    fun state => each state False.elim
  askNames each _ := Journal.bind (fun _ _ => ensures_read.mpr (.grown rfl (Nat.le_refl _)))
    fun subject => each subject fun _ _ _ => trivial
  lone _ _ := trivial
  emit _ := Journal.note (fun _ => rfl) fun _ => (Code.Extends.place _ _).size
  loadRef _ _ _ _ := Journal.note (fun _ => rfl) fun _ => by
    dsimp only
    rw [Code.loadWide_eq]
    exact (Code.Extends.emit _ _).size
  newLabel := Journal.change (fun _ => rfl) fun _ => Nat.le_refl _
  openFrame := Journal.change (fun _ => rfl) fun _ => (Code.Extends.place _ _).size
  setFrame _ := Journal.note (fun _ => rfl) fun _ =>
    Nat.le_of_eq (Code.Rewrites.patch _ _ _).same.size.symm
  note silent _ _ := Journal.note (fun state => (silent state).events) fun state =>
    Nat.le_of_eq (congrArg Code.size (silent state).code.symm)
  transfer _ within := Journal.transfer _ within.calm
  machine event _ loud inside := Journal.machine event loud inside
  block _ := Journal.block

end Compile

end WasmX64

/-!
## Control events

The instructions that open blocks tell of one start among their machine-level constructs, the
marker that ends a body tells of one end, and nothing else tells of blocks.  An end is at the
depth of its start, and has its kind unless an `if` has gone on with its else arm: starts and
ends nest.
-/

namespace WasmX64

/-- One event of a block among machine-level constructs. -/
def Around (what : Happening) (depth : Nat) (events : List Event) : Prop :=
  ∃ front event back, events = front ++ event :: back ∧ Paired front ∧ Paired back ∧
    event.what = what ∧ event.depth = depth

def Opcode.opens : Opcode → Option BlockKind
  | .block => some .block
  | .loop => some .loop
  | .branchIf => some .ifThen
  | _ => none

/-- The kinds of the open blocks, innermost first, behind an instruction or marker. -/
def Opcode.nest (op : Opcode) (kinds : List BlockKind) : List BlockKind :=
  match op, kinds with
  | .finish, kinds => kinds.tail
  | .otherwise, .ifThen :: outer => .elseArm :: outer
  | op, kinds => op.opens.toList ++ kinds

/-- What is told of an instruction or marker in blocks of some kinds. -/
def Opcode.Tells (op : Opcode) (kinds : List BlockKind) (events : List Event) : Prop :=
  match op with
  | .finish => ∃ kind, kinds.head? = some kind ∧ Around (.controlEnd kind) kinds.length events
  | op =>
    match op.opens with
    | some kind => Around (.controlStart kind) (kinds.length + 1) events
    | none => Paired events

/-- Whether an event is the start or the end of a block. -/
def Event.isControl (event : Event) : Bool := event.what.isBlock

/-- Machine-level constructs tell nothing of blocks. -/
theorem Paired.controls {events : List Event} (paired : Paired events) :
    events.filter Event.isControl = [] := by
  induction paired with
  | nil => rfl
  | @cons event start stop rest starts stops _ ih =>
    have first : start.isControl = false := congrArg Happening.isBlock starts
    have second : stop.isControl = false := congrArg Happening.isBlock stops
    rw [List.filter_cons, first, List.filter_cons, second]
    exact ih

theorem Around.controls {what : Happening} {depth : Nat} {events : List Event}
    (around : Around what depth events) (isBlock : what.isBlock = true) :
    ∃ event, events.filter Event.isControl = [event] ∧ event.what = what ∧
      event.depth = depth := by
  obtain ⟨front, event, back, rfl, before, behind, happens, level⟩ := around
  refine ⟨event, ?_, happens, level⟩
  have kept : event.isControl = true := by rw [Event.isControl, happens, isBlock]
  rw [List.filter_append, before.controls, List.filter_cons, if_pos kept, behind.controls]
  rfl

namespace Course

/-- The kinds of the open blocks depend on the opcodes alone. -/
theorem kinds_lower (op : Opcode) (instr : Instr) (courses : List Course) :
    (lower op instr courses).map Course.kind = op.nest (courses.map Course.kind) := by
  cases op
  case finish => rw [lower, List.map_tail, Opcode.nest]
  case otherwise =>
    cases courses with
    | nil => rfl
    | cons course outer =>
      rw [lower]
      by_cases armed : course.kind = .ifThen
      · rw [if_pos armed, List.map_cons, List.map_cons, armed]
        rfl
      · rw [if_neg armed, List.map_cons]
        unfold Opcode.nest
        split
        · simp_all
        · simp_all
        · rfl
  all_goals rfl

end Course

namespace Compile

open Compilation (Logs)
open Mark

variable {α : Type} {marks : List Mark} {origin : Compilation} {subject : Subject}
  {state : Compilation}

/-- On the way through an instruction, with machine-level constructs only behind. -/
structure Walked (marks : List Mark) (origin : Compilation) (subject : Subject)
    (state : Compilation) : Prop where
  noted : Noted marks subject state
  logs : Logs Paired origin state

theorem Journal.walks {high : Nat} {action : Compile α}
    (journal : Obeys (Unbounded Journal) .machine 0 high action)
    (keeps : Keeps (Noted marks) action anything) :
    Keeps (Walked marks origin) action anything := by
  intro subject state walked
  refine ((keeps subject state walked.noted).and (journal subject state)).mono ?_
  rintro _ after ⟨⟨noted, _⟩, logs⟩
  exact ⟨⟨noted, walked.logs.compose logs fun _ _ => .append⟩, trivial⟩

theorem enter_walked (kind : BlockKind) (operands : Instr)
    (walked : Walked marks origin subject state) :
    Ensures (enter kind operands) subject state fun _ after =>
      Walked (opened kind operands marks :: marks) origin subject after := by
  have journal : Obeys (Unbounded Journal) .machine 0 0 (enter kind operands) := Obeys.enter _ _
  refine ((enter_noted kind operands walked.noted).and (journal subject state)).mono ?_
  rintro _ after ⟨noted, logs⟩
  exact ⟨noted, walked.logs.compose logs fun _ _ => .append⟩

/-- The event of a block, and what comes behind it. -/
theorem record_around {what : Happening} {rest : Compile Unit}
    (walked : Walked marks origin subject state)
    (behind : Obeys (Unbounded Journal) .machine 0 0 rest) :
    Ensures (record what >>= fun _ => rest) subject state fun _ after =>
      Logs (Around what marks.length) origin after := by
  rw [ensures_bind]
  rintro _ _ ⟨⟩
  refine (behind subject _).mono ?_
  intro _ after logs
  have recorded : Logs (fun events => ∃ front event, events = front ++ [event] ∧ Paired front ∧
      event.what = what ∧ event.depth = marks.length) origin
      { state with events := state.events.push (state.event subject what) } := by
    refine walked.logs.compose (logs_record subject state what) ?_
    rintro front _ before rfl
    refine ⟨front, _, rfl, before, rfl, ?_⟩
    rw [← walked.noted, Compilation.marks, List.length_map]
    rfl
  refine recorded.compose logs ?_
  rintro _ back ⟨front, event, rfl, before, happens, level⟩ behind
  exact ⟨front, event, back, List.append_assoc .., before, behind, happens, level⟩

theorem lowerBlock_tells (walked : Walked marks origin subject state) (instr : Instr) :
    Ensures (lowerBlock instr) subject state fun _ after =>
      Logs (Around (.controlStart .block) (marks.length + 1)) origin after := by
  have split : lowerBlock instr =
      (enter .block instr >>= fun _ => record (.controlStart .block) >>= fun _ => pure ()) := by
    rw [bind_pure]
    rfl
  rw [split, ensures_bind]
  refine (enter_walked .block instr walked).mono ?_
  intro _ entered walked
  exact record_around walked Obeys.pure

theorem lowerLoop_tells (walked : Walked marks origin subject state) (instr : Instr) :
    Ensures (lowerLoop instr) subject state fun _ after =>
      Logs (Around (.controlStart .loop) (marks.length + 1)) origin after := by
  unfold lowerLoop
  refine (enter_walked .loop instr walked).andThen ?_
  intro _ entered walked
  refine (Journal.walks Obeys.spillLocals (.through .spillLocals) subject entered walked).andThen ?_
  rintro _ spilled ⟨walked, _⟩
  apply record_around walked
  refine Obeys.innermost.andThen fun block => (Obeys.bind (by decide) _ _).andThen fun _ => ?_
  exact .look (fun _ _ => rfl) fun _ _ => Obeys.modifyBlock _ False.elim

theorem lowerIf_tells (walked : Walked marks origin subject state) (instr : Instr) :
    Ensures (lowerIf instr) subject state fun _ after =>
      Logs (Around (.controlStart .ifThen) (marks.length + 1)) origin after := by
  unfold lowerIf
  refine (Journal.walks (Obeys.expect _ _) (.through (.expect _ _)) subject state walked).andThen ?_
  rintro _ tested ⟨walked, _⟩
  refine (Journal.walks (Obeys.popRegister _) (.through (.popRegister _)) subject tested
    walked).andThen ?_
  rintro condition popped ⟨walked, _⟩
  refine (enter_walked .ifThen instr walked).andThen ?_
  intro _ entered walked
  apply record_around walked
  refine Obeys.innermost.andThen fun block => ?_
  refine (Obeys.branchIfZero (by decide) _ _ _).andThen fun _ => ?_
  exact .look (fun _ _ => rfl) fun _ _ => Obeys.modifyBlock _ False.elim

theorem lowerEnd_tells (walked : Walked marks origin subject state) :
    Ensures lowerEnd subject state fun _ after => ∃ kind,
      (marks.map (·.course.kind)).head? = some kind ∧
        Logs (Around (.controlEnd kind) marks.length) origin after := by
  unfold lowerEnd
  rw [ensures_bind]
  cases opened : state.blocks with
  | nil =>
    unfold innermost
    rw [ensures_bind, ensures_get, opened]
    exact ensures_throw
  | cons block outer =>
    have kind : (marks.map (·.course.kind)).head? = some block.kind := by
      rw [← walked.noted, Compilation.marks, opened]
      rfl
    refine (innermost_finds opened).mono ?_
    rintro found after ⟨rfl, rfl⟩
    have shut : Obeys (Unbounded Journal) .machine 0 0 closeBlock := Obeys.closeBlock
    rw [ensures_bind, ensures_get]
    refine ensures_ite.mpr ⟨fun _ => ?_, fun _ => ?_⟩
    · refine ensures_ite.mpr ⟨fun _ => ?_, fun _ => ?_⟩
      · refine (Journal.walks (Obeys.demandEndHeight _) (.through (.demandEndHeight _)) subject _
        walked).andThen ?_
        rintro _ tested ⟨walked, _⟩
        refine (Journal.walks (Obeys.returnFromFunction (by decide)) noted_returnFromFunction
          subject tested walked).andThen ?_
        rintro _ returned ⟨walked, _⟩
        exact (record_around walked shut).mono fun _ _ logs => ⟨_, kind, logs⟩
      · exact (record_around walked shut).mono fun _ _ logs => ⟨_, kind, logs⟩
    · rw [endBlock_eq]
      refine (Journal.walks (Obeys.settleEnd (by decide) False.elim) (noted_settleEnd _) subject _
        walked).andThen ?_
      rintro _ settled ⟨walked, _⟩
      refine (record_around walked (Obeys.optional (Obeys.bind (by decide) _ _)
        (Obeys.leaveBlock found))).mono ?_
      exact fun _ _ logs => ⟨_, kind, logs⟩

theorem lower_tells (op : Opcode) (instr : Instr) :
    Ensures (lower op instr) subject state fun _ after =>
      Logs (op.Tells (state.courses.map Course.kind)) state after := by
  have walked : Walked state.marks state subject state :=
    ⟨rfl, [], (List.append_nil _).symm, .nil, .nil (Nat.le_refl _)⟩
  have kinds : state.courses.map Course.kind = state.marks.map (·.course.kind) := by
    rw [state.courses_marks, List.map_map]
    rfl
  have depth : (state.marks.map (·.course.kind)).length = state.marks.length := List.length_map ..
  have plain : op.isStructured = false ∧ op ≠ .finish →
      Ensures (lower op instr) subject state fun _ after => Logs Paired state after :=
    fun apart => (Obeys.lower (by decide) op instr (fun _ _ => trivial) (.inr apart) :
      Obeys (Unbounded Journal) .machine 0 1 _) subject state
  rw [kinds]
  cases op
  case block =>
    exact (lowerBlock_tells walked instr).mono fun _ _ logs => logs.mono fun _ => depth ▸ id
  case loop =>
    exact (lowerLoop_tells walked instr).mono fun _ _ logs => logs.mono fun _ => depth ▸ id
  case branchIf =>
    exact (lowerIf_tells walked instr).mono fun _ _ logs => logs.mono fun _ => depth ▸ id
  case finish =>
    refine (lowerEnd_tells walked).mono ?_
    rintro _ after ⟨kind, first, logs⟩
    exact logs.mono fun _ around => ⟨kind, first, depth ▸ around⟩
  all_goals exact plain ⟨rfl, nofun⟩

end Compile

/-- The control events of blocks that are closed: an end has the depth of its start and its
kind, or ends the else arm of an `if`. -/
inductive Matched : List Event → Prop
  | nil : Matched []
  | cons {kind last : BlockKind} {start stop : Event} {inside rest : List Event}
      (opens : start.what = .controlStart kind) (closes : stop.what = .controlEnd last)
      (same : last = kind ∨ kind = .ifThen ∧ last = .elseArm)
      (level : stop.depth = start.depth) (inner : Matched inside) (next : Matched rest) :
      Matched (start :: inside ++ stop :: rest)

theorem Matched.append {first second : List Event} (left : Matched first) (right : Matched second) :
    Matched (first ++ second) := by
  induction left with
  | nil => exact right
  | cons opens closes same level inner _ _ ih =>
    rw [List.append_assoc]
    exact .cons opens closes same level inner ih

/-- The control events of a function in which blocks of some kinds are open, innermost first.
The body itself has an end but no start. -/
inductive Unclosed : List BlockKind → List Event → Prop
  | done {events : List Event} {stop : Event} (nested : Matched events)
      (closes : stop.what = .controlEnd .block) (level : stop.depth = 1) :
      Unclosed [] (events ++ [stop])
  | body {events : List Event} (nested : Matched events) : Unclosed [.block] events
  | opened {kind last outer : BlockKind} {others : List BlockKind} {events inside : List Event}
      {start : Event} (around : Unclosed (outer :: others) events)
      (opens : start.what = .controlStart kind)
      (same : last = kind ∨ kind = .ifThen ∧ last = .elseArm)
      (level : start.depth = others.length + 2) (inner : Matched inside) :
      Unclosed (last :: outer :: others) (events ++ start :: inside)

namespace Unclosed

variable {kind : BlockKind} {kinds : List BlockKind} {events more : List Event}

theorem extend (unclosed : Unclosed (kind :: kinds) events) (nested : Matched more) :
    Unclosed (kind :: kinds) (events ++ more) := by
  cases unclosed with
  | body before => exact .body (before.append nested)
  | opened around opens same level inner =>
    rw [List.append_assoc, List.cons_append]
    exact .opened around opens same level (inner.append nested)

/-- An instruction or marker opens and closes blocks as it tells. -/
theorem step {op : Opcode} (unclosed : Unclosed (kind :: kinds) events)
    (tells : op.Tells (kind :: kinds) more) :
    Unclosed (op.nest (kind :: kinds)) (events ++ more.filter Event.isControl) := by
  have opening : ∀ opened : BlockKind, Around (.controlStart opened) (kinds.length + 2) more →
      Unclosed (opened :: kind :: kinds) (events ++ more.filter Event.isControl) := by
    intro opened around
    obtain ⟨event, only, happens, level⟩ := around.controls rfl
    rw [only]
    exact .opened unclosed happens (.inl rfl) level .nil
  have staying : Paired more →
      Unclosed (kind :: kinds) (events ++ more.filter Event.isControl) := by
    intro paired
    rw [paired.controls, List.append_nil]
    exact unclosed
  cases op
  case block => exact opening .block tells
  case loop => exact opening .loop tells
  case branchIf => exact opening .ifThen tells
  case otherwise =>
    have stays := staying tells
    generalize events ++ more.filter Event.isControl = told at stays
    unfold Opcode.nest
    split
    · contradiction
    · rename_i same
      cases same
      cases stays with
      | opened outside opens same level inner =>
        refine .opened outside opens (.inr ⟨?_, rfl⟩) level inner
        cases same with
        | inl equal => exact equal.symm
        | inr arms => exact arms.1
    · exact stays
  case finish =>
    obtain ⟨last, first, around⟩ := tells
    obtain rfl : kind = last := Option.some.inj first
    obtain ⟨event, only, happens, level⟩ := around.controls rfl
    rw [only]
    cases unclosed with
    | body nested => exact .done nested happens level
    | opened outside opens same deep inner =>
      rw [List.append_assoc]
      exact outside.extend (.cons opens happens same (level.trans deep.symm) inner .nil)
  all_goals exact staying tells

end Unclosed

end WasmX64

/-! ## The stream of a compilation -/

namespace WasmX64

/-- The instruction or marker that the next round lowers, with its number: none once the body
is closed, and none in dead code. -/
def Compilation.lowers? (state : Compilation) : Option (Int × Visit) :=
  match state.blocks with
  | [] => none
  | block :: _ =>
    if block.reach = .unreachable ∧ block.course.first.2 ≠ .finish ∧
        block.course.first.2 ≠ .otherwise then none
    else some (state.instr, block.course.first)

/-- The instructions and markers that a number of rounds lower, with their numbers. -/
def loweredWithin (module : Option Module) (host : Host) (index : UInt32) :
    Nat → List (Int × Visit)
  | 0 => []
  | count + 1 =>
    loweredWithin module host index count ++
      match compilingAfter module host index count with
      | .ok state => state.lowers?.toList
      | .error _ => []

/-- The events of instructions and markers one after another: each is told of between its start
and its end, and all these events have its number and opcode. -/
inductive Spans (func : UInt32) : List (Int × Visit) → List Event → Prop
  | nil : Spans func [] []
  | cons {number : Int} {visit : Visit} {start stop : Event} {inner : List Event}
      {snapshot : Snapshot} {kinds : List BlockKind} {rest : List (Int × Visit)}
      {others : List Event} (starts : start.what = .instrStart visit.1)
      (stops : stop.what = .instrEnd visit.1 snapshot) (tells : visit.2.Tells kinds inner)
      (named : ∀ event ∈ start :: (inner ++ [stop]),
        event.func = func ∧ event.instr = number ∧ event.op = visit.2)
      (next : Spans func rest others) :
      Spans func ((number, visit) :: rest) (start :: inner ++ stop :: others)

namespace Spans

variable {func : UInt32} {first second : List (Int × Visit)} {events others : List Event}

theorem append (left : Spans func first events) (right : Spans func second others) :
    Spans func (first ++ second) (events ++ others) := by
  induction left with
  | nil => exact right
  | cons starts stops tells named _ ih =>
    rw [List.append_assoc]
    exact .cons starts stops tells named ih

end Spans

/-- What has been told of a body since its start. -/
structure Compilation.Told (start : Compilation) (subject : Subject)
    (lowered : List (Int × Visit)) (state : Compilation) : Prop where
  events : ∃ body, state.events.toList = start.events.toList ++ body ∧
    Spans subject.index lowered body ∧
    Ascends start.output.code.size body state.output.code.size ∧
    Unclosed (state.courses.map Course.kind) (body.filter Event.isControl)
  below : ∀ entry ∈ lowered, entry.1 < state.instr
  sorted : lowered.Pairwise fun earlier later => earlier.1 < later.1

namespace Compile

open Compilation (Logs Told)
open Course

variable {subject : Subject} {start state : Compilation} {block : Block} {outer : List Block}
  {lowered : List (Int × Visit)}

theorem kinds_opened (opened : state.blocks = block :: outer) :
    state.courses.map Course.kind = block.kind :: outer.map Block.kind := by
  rw [Compilation.courses, opened, List.map_map, List.map_cons]
  rfl

/-- Dead code is skipped without a word. -/
theorem round_silent (told : Told start subject lowered state)
    (opened : state.blocks = block :: outer)
    (dead : block.reach = .unreachable ∧ block.course.first.2 ≠ .finish ∧
      block.course.first.2 ≠ .otherwise) :
    Ensures (next block >>= fun (instr, op) => step instr op) subject state fun _ after =>
      Told start subject lowered after := by
  refine (next_takes opened).andThen ?_
  rintro taken middle ⟨rfl, same⟩
  have blocks : middle.blocks = { block with pending := block.pending.tail } :: outer := by
    rw [same]
  refine (step_dead blocks dead).mono ?_
  rintro _ after rfl
  obtain ⟨body, all, spans, ascends, unclosed⟩ := told.events
  have kinds : middle.courses.map Course.kind = state.courses.map Course.kind := by
    rw [kinds_opened blocks, kinds_opened opened]
  refine ⟨⟨body, ?_, spans, ?_, kinds ▸ unclosed⟩, fun entry member => ?_, told.sorted⟩
  · rw [← all, same]
  · rw [same]
    exact ascends
  · have below := told.below entry member
    rw [same]
    dsimp only
    omega

theorem demandSound_still :
    Ensures demandSound subject state fun _ after => after = state := by
  unfold demandSound
  rw [ensures_bind, ensures_get]
  split
  · exact ensures_throw
  · exact ensures_pure.mpr rfl

/-- What an instruction or marker tells of itself, where it stands then, and its number. -/
theorem lower_spans (books : Books subject state) (opened : state.blocks = block :: outer)
    (op : Opcode) (instr : Instr) (here : state.op = op) :
    Ensures (lower op instr >>= fun _ => demandSound) subject state fun _ after =>
      after.instr = state.instr ∧ after.op = op ∧
        after.courses.map Course.kind = op.nest (state.courses.map Course.kind) ∧
        Logs (fun inner => op.Tells (state.courses.map Course.kind) inner ∧
          ∀ event ∈ inner, event.func = subject.index ∧ event.instr = state.instr ∧
            event.op = op) state after := by
  subst here
  intro value after ran
  have steady : Obeys (Unbounded Steady) .blocks 0 1
      (lower state.op instr >>= fun _ => demandSound) :=
    (Obeys.lower Recording.blocks_loud _ _ (fun _ _ => trivial) (.inl rfl)).andThen
      fun _ => .demandSound
  have proceeds := steady subject state
  rw [final, ran] at proceeds
  have walks : Ensures (lower state.op instr >>= fun _ => demandSound) subject state
      fun _ after => Logs (state.op.Tells (state.courses.map Course.kind)) state after ∧
        Here (Course.lower state.op instr state.courses) state subject after := by
    refine ((lower_tells state.op instr).and
      (lower_here opened books (.start subject state))).andThen ?_
    intro _ lowered both
    refine demandSound_still.mono ?_
    rintro _ _ rfl
    exact both
  obtain ⟨⟨inner, all, tells, ascends⟩, here⟩ := walks value after ran
  obtain ⟨added, same, named⟩ := proceeds.events
  obtain rfl : inner = added := List.append_cancel_left (all.symm.trans same)
  refine ⟨proceeds.instr, proceeds.op, ?_, inner, all, ⟨tells, ?_⟩, ascends⟩
  · rw [here.courses, Course.kinds_lower]
  · intro event member
    obtain ⟨func, number, code, _⟩ := named event member
    exact ⟨func, number, code⟩

theorem round_tells (told : Told start subject lowered state) (books : Books subject state)
    (opened : state.blocks = block :: outer)
    (alive : ¬ (block.reach = .unreachable ∧ block.course.first.2 ≠ .finish ∧
      block.course.first.2 ≠ .otherwise)) :
    Ensures (next block >>= fun (instr, op) => step instr op) subject state fun _ after =>
      Told start subject (lowered ++ [(state.instr, block.course.first)]) after := by
  refine ((next_takes opened).and (keeps_next block subject state books)).andThen ?_
  rintro taken middle ⟨⟨rfl, same⟩, ready, _⟩
  have blocks : middle.blocks = { block with pending := block.pending.tail } :: outer := by
    rw [same]
  have kinds : middle.courses.map Course.kind = state.courses.map Course.kind := by
    rw [kinds_opened blocks, kinds_opened opened]
  let code := block.course.first.2
  let opens : Event := (noted middle code).event subject (.instrStart block.course.first.1)
  let started : Compilation := { noted middle code with events := middle.events.push opens }
  have begins : started.blocks = { block with pending := block.pending.tail } :: outer := blocks
  have booked : Books subject started := ⟨ready.sound, ready.tall, ready.blocks⟩
  have lowers := lower_spans booked begins code (block.course.first.1.getD { op := code }) rfl
  intro value after ran
  change step block.course.first.1 block.course.first.2 subject middle = .ok value after at ran
  rw [step_run blocks alive] at ran
  cases lowering : (lower code (block.course.first.1.getD { op := code }) >>=
      fun _ => demandSound) subject started with
  | error fault lost =>
    rw [lowering] at ran
    cases ran
  | ok done reached =>
    rw [lowering] at ran
    cases ran
    obtain ⟨number, op, nests, inner, all, ⟨tells, named⟩, ascends⟩ :=
      lowers done reached lowering
    let stops : Event := reached.event subject (.instrEnd block.course.first.1
      ⟨reached.blocks.head?.map Block.reach, reached.layout, reached.output.frameSlots⟩)
    obtain ⟨body, before, spans, rises, unclosed⟩ := told.events
    have counted : started.instr = state.instr := by
      change middle.instr = state.instr
      rw [same]
    have size : started.output.code.size = state.output.code.size := by
      change middle.output.code.size = state.output.code.size
      rw [same]
    have begins : started.events.toList = state.events.toList ++ [opens] := by
      change (middle.events.push opens).toList = _
      rw [Array.toList_push, same]
    have held : started.courses.map Course.kind = state.courses.map Course.kind := kinds
    rw [counted] at number named
    rw [held] at nests tells
    rw [size] at ascends
    refine ⟨⟨body ++ (opens :: inner ++ [stops]), ?_, ?_, ?_, ?_⟩, ?_, ?_⟩
    · change (reached.events.push stops).toList = _
      rw [Array.toList_push, all, begins, before]
      simp only [List.append_assoc, List.cons_append, List.nil_append]
    · refine spans.append (.cons rfl rfl tells ?_ .nil)
      intro event member
      rcases List.mem_cons.mp member with rfl | inside
      · exact ⟨rfl, counted, rfl⟩
      · cases List.mem_append.mp inside with
        | inl inside => exact named event inside
        | inr last =>
          rw [List.mem_singleton.mp last]
          exact ⟨rfl, number, op⟩
    · have first : opens.offset = state.output.code.size := size
      refine rises.append (.cons (Nat.le_of_eq first.symm) ?_)
      rw [first]
      exact ascends.append (.one (Nat.le_refl _) (Nat.le_refl _))
    · have unmarked : (opens :: inner ++ [stops]).filter Event.isControl =
          inner.filter Event.isControl := by
        simp [opens, stops, Event.isControl, Compilation.event, Happening.isBlock]
      rw [List.filter_append, unmarked]
      change Unclosed (reached.courses.map Course.kind) _
      rw [nests]
      rw [kinds_opened opened] at unclosed tells ⊢
      exact unclosed.step tells
    · intro entry member
      change entry.1 < reached.instr + 1
      rw [number]
      cases List.mem_append.mp member with
      | inl old =>
        have below := told.below entry old
        omega
      | inr new =>
        rw [List.mem_singleton.mp new]
        exact Int.lt_succ _
    · refine List.pairwise_append.mpr ⟨told.sorted, List.pairwise_singleton _ _, ?_⟩
      intro entry old last new
      rw [List.mem_singleton.mp new]
      exact told.below entry old

theorem begin_told {frame : Nat} (begun : begin subject {} = .ok frame start) :
    start.events.toList = [Compilation.event subject {} (.functionStart subject.function)] ∧
      Told start subject [] start := by
  have places : Journal .nothing places := obeys_places
  have kinds : start.courses.map Course.kind = [.block] := by
    obtain ⟨_, _, courses⟩ := @begin_between (fun _ => False) _ frame start begun
    rw [courses]
    rfl
  have starts : Ensures begin subject {} fun _ after =>
      after.events.toList = [Compilation.event subject {} (.functionStart subject.function)] := by
    intro value after ran
    rw [begin_run] at ran
    revert value after
    change Ensures _ _ _ _
    refine (places subject _).andThen ?_
    rintro _ placed ⟨added, all, nothing, _⟩
    obtain rfl : added = [] := nothing
    rw [ensures_bind, ensures_modify, ensures_pure]
    exact all
  refine ⟨starts frame start begun, ⟨[], (List.append_nil _).symm, .nil, .nil (Nat.le_refl _), ?_⟩,
    nofun, .nil⟩
  rw [kinds]
  exact .body .nil

theorem conclude_told (frame : Nat) :
    Ensures (conclude frame) subject state fun _ after => ∃ stop,
      after.events.toList = state.events.toList ++ [stop] ∧
        stop.what = .functionEnd subject.function ∧
        state.output.code.size ≤ stop.offset := by
  intro value after ran
  rw [conclude_run] at ran
  revert value after
  change Ensures _ _ _ _
  have reports : Journal .nothing (reports frame) := obeys_reports frame
  refine (reports subject state).andThen ?_
  rintro traps reported ⟨added, all, nothing, ascends⟩
  obtain rfl : added = [] := nothing
  rw [List.append_nil] at all
  rw [ensures_bind, ensures_modify, ensures_bind]
  rintro _ _ ⟨⟩
  rw [ensures_bind, ensures_get, ensures_pure]
  refine ⟨_, (Array.toList_push ..).trans (congrArg (· ++ [_]) all), rfl, ?_⟩
  cases ascends with
  | nil grows => exact grows

end Compile

section Function

variable {module : Module} {host : Host} {index : UInt32}

/-- Rounds of the driver tell of what they lower. -/
theorem told_within {subject : Subject} {frame : Nat} {start : Compilation}
    (made : Subject.of (some module) host index = .ok subject)
    (begun : Compile.begin subject {} = .ok frame start) (count : Nat) :
    ∀ state, Compile.steps count subject start = .ok () state →
      Compilation.Told start subject (loweredWithin (some module) host index count) state := by
  have books := Compile.begin_books (Subject.of_proper made) frame start begun
  induction count with
  | zero =>
    rintro _ ⟨⟩
    exact (Compile.begin_told begun).2
  | succ count ih =>
    intro state ran
    rw [Compile.steps_add, Compile.bind_run] at ran
    cases reached : Compile.steps count subject start with
    | error fault middle =>
      rw [reached] at ran
      cases ran
    | ok done middle =>
      rw [reached] at ran
      dsimp only at ran
      have told := ih middle reached
      have kept := (Compile.keeps_steps count subject start books done middle reached).1
      rw [loweredWithin, compilingAfter_of_steps made begun reached]
      dsimp only
      unfold Compilation.lowers?
      cases opened : middle.blocks with
      | nil =>
        rw [Compile.steps_of_closed 1 opened] at ran
        cases ran
        rw [Option.toList_none, List.append_nil]
        exact told
      | cons block outer =>
        rw [Compile.steps_one opened] at ran
        dsimp only
        split
        · rename_i dead
          rw [Option.toList_none, List.append_nil]
          exact Compile.round_silent told opened dead () state ran
        · rename_i alive
          exact Compile.round_tells told kept opened alive () state ran

/-- The stream of events of a function that is compiled is well bracketed.  It starts and ends
with the function.  Between these come the instructions and markers that the rounds of the
driver lower, that is all but those skipped as dead code, with increasing numbers; each is told
of between its start and its end, of which the events have its number and opcode.  Inside are
machine-level constructs, the end of each right behind its start, and for what opens or closes a
block one control event.  Starts and ends of blocks nest, at equal depths, with the end of the
body as the only one that has no start.  Offsets never go down. -/
theorem events_bracketed {compiled : Compiled}
    (compiles : (compileFunction (some module) host index).outcome = .ok compiled) :
    ∃ count state function first body last,
      compilingAfter (some module) host index count = .ok state ∧ state.blocks = [] ∧
      module.functions[index.toNat]? = some function ∧
      (compileFunction (some module) host index).events.toList = first :: body ++ [last] ∧
      first.what = .functionStart function ∧ last.what = .functionEnd function ∧
      Spans index (loweredWithin (some module) host index count) body ∧
      (loweredWithin (some module) host index count).Pairwise
        (fun earlier later => earlier.1 < later.1) ∧
      (∃ nested stop, body.filter Event.isControl = nested ++ [stop] ∧ Matched nested ∧
        stop.what = .controlEnd .block ∧ stop.depth = 1) ∧
      (first :: body ++ [last]).Pairwise fun earlier later => earlier.offset ≤ later.offset := by
  obtain ⟨subject, final, frame, start, made, ran, begun⟩ := compileFunction_ok compiles
  obtain ⟨_, _, found, _⟩ := Subject.of_ok made
  obtain ⟨state, reached, closed, concludes⟩ :=
    Compile.function_closes (Subject.of_proper made) begun ran
  have events : (compileFunction (some module) host index).events = final.events := by
    unfold compileFunction
    rw [made]
    dsimp only
    rw [ran]
  have told := told_within made begun (Compile.rounds subject) state reached
  obtain ⟨begins, _⟩ := Compile.begin_told begun
  obtain ⟨last, ends, finishes, behind⟩ := Compile.conclude_told frame compiled final concludes
  obtain ⟨body, all, spans, ascends, unclosed⟩ := told.events
  have kinds : state.courses.map Course.kind = [] := by
    rw [Compilation.courses, closed]
    rfl
  rw [kinds] at unclosed
  refine ⟨Compile.rounds subject, state, subject.function,
    Compilation.event subject {} (.functionStart subject.function), body, last,
    compilingAfter_of_steps made begun reached, closed, found, ?_, rfl, finishes,
    Subject.index_of made ▸ spans, told.sorted, ?_, ?_⟩
  · rw [events, ends, all, begins]
    rfl
  · generalize body.filter Event.isControl = controls at unclosed
    cases unclosed with
    | done nested closes level => exact ⟨_, _, rfl, nested, closes, level⟩
  · have whole : Ascends 0 (Compilation.event subject {} (.functionStart subject.function) ::
        (body ++ [last])) last.offset :=
      .cons (Nat.zero_le _) ((Ascends.nil (Nat.zero_le _)).append
        (ascends.append (.one behind (Nat.le_refl _))))
    exact whole.sorted

end Function

/-- The block around a loop that is skipped starts and ends at depth two, and the body ends at
depth one. -/
theorem events_bracketed_skippedLoop :
    ∃ count first body last nested stop,
      (compileFunction (some skippedLoop) {} 0).events.toList = first :: body ++ [last] ∧
      Spans 0 (loweredWithin (some skippedLoop) {} 0 count) body ∧
      body.filter Event.isControl = nested ++ [stop] ∧ Matched nested ∧
      ((compileFunction (some skippedLoop) {} 0).events.toList.filter Event.isControl).map
        Event.depth = [2, 2, 1] := by
  have fine : (compileFunction (some skippedLoop) {} 0).outcome.toOption.isSome = true ∧
      ((compileFunction (some skippedLoop) {} 0).events.toList.filter Event.isControl).map
        Event.depth = [2, 2, 1] := by decide +kernel
  obtain ⟨compiles, depths⟩ := fine
  cases ran : (compileFunction (some skippedLoop) {} 0).outcome with
  | error fault =>
    rw [ran] at compiles
    cases compiles
  | ok compiled =>
    obtain ⟨count, _, _, first, body, last, _, _, _, all, _, _, spans, _,
      ⟨nested, stop, controls, matched, _⟩, _⟩ := events_bracketed ran
    exact ⟨count, first, body, last, nested, stop, all, spans, controls, matched, depths⟩

end WasmX64
