import WasmX64.Proofs.Code.Wiring
import WasmX64.Proofs.Sequence.Tame

/-!
# Stages of the stack

The code of a function opens a frame, works inside it, pushes words for a call and takes them off
again, and closes the frame.  A stage is a point of this course.  `Stage.after` says to which
stage an instruction leads and which instructions a stage admits; jumps and the places they lead
to are admitted inside the frame only, where nothing is pushed.
-/

namespace WasmX64

/-- Where code stands with the stack. -/
inductive Stage where
  /-- At the start of a function. -/
  | entry
  /-- The frame pointer of the caller is saved. -/
  | saved
  /-- The frame pointer is set. -/
  | based
  /-- Inside the frame, with a number of words pushed for a call. -/
  | body (words : Nat)
  /-- Behind a call that a number of words were pushed for. -/
  | called (words : Nat)
  /-- The stack pointer is back at the saved frame pointer. -/
  | closing
  /-- The frame pointer is that of the caller again. -/
  | closed
  /-- The stack pointer is that of the host. -/
  | gone
deriving DecidableEq, Repr

/-- An instruction that leaves stack and frame pointer alone, does not access the words on top of
the stack and goes on behind itself. -/
def Instruction.steady (instruction : Instruction) : Bool :=
  decide (∀ reg ∈ instruction.written, reg.Ordinary) &&
    instruction.operand?.all (fun address => address.base ≠ .rsp) && !instruction.leaves

namespace Stage

/-- To which stage an instruction leads that is for the stack, inside the frame. -/
def stir (words : Nat) : Instruction → Option Stage
  | .push _ | .pushImm _ | .pushLoad _ => some (.body (words + 1))
  | .callReg _ =>
    if words % 2 = 1 then none else if words = 0 then some (.body 0) else some (.called words)
  | .aluImm op type dst imm =>
    if op = .sub ∧ type = .i64 ∧ dst = .rsp ∧ imm = 8 then some (.body (words + 1)) else none
  | .floatStore _ address _ =>
    if address = .based .rsp 0 ∧ 0 < words then some (.body words) else none
  | .mov type dst src =>
    if type = .i64 ∧ dst = .rsp ∧ src = .rbp ∧ words = 0 then some .closing else none
  | .load type dst address =>
    if type = .i64 ∧ dst = .rsp ∧ address.base.Ordinary ∧ words = 0 then some .gone else none
  | _ => none

/-- To which stage an instruction leads inside the frame. -/
def inside (words : Nat) (instruction : Instruction) : Option Stage :=
  if instruction.steady then some (.body words) else stir words instruction

/-- To which stage an instruction leads, if the stage admits it. -/
def after : Stage → Instruction → Option Stage
  | .entry, instruction => if instruction = .push .rbp then some .saved else none
  | .saved, instruction => if instruction = .mov .i64 .rbp .rsp then some .based else none
  | .based, .enterFrame _ => some (.body 0)
  | .body words, instruction => inside words instruction
  | .called words, instruction =>
    if instruction = .aluImm .add .i64 .rsp (Int32.ofInt (8 * words)) then some (.body 0)
    else none
  | .closing, instruction => if instruction = .pop .rbp then some .closed else none
  | .closed, instruction => if instruction = .ret then some (.body 0) else none
  | .gone, .jmpLoad _ => some (.body 0)
  | _, _ => none

/-- The instructions that a stage admits, each with the stage it leads to. -/
inductive Goes : Stage → Instruction → Stage → Prop
  | save : Goes .entry (.push .rbp) .saved
  | base : Goes .saved (.mov .i64 .rbp .rsp) .based
  | enter (size : UInt32) : Goes .based (.enterFrame size) (.body 0)
  | steady {words : Nat} {instruction : Instruction} (steady : instruction.steady = true) :
      Goes (.body words) instruction (.body words)
  | push (words : Nat) (reg : Register) : Goes (.body words) (.push reg) (.body (words + 1))
  | pushImm (words : Nat) (imm : Int32) : Goes (.body words) (.pushImm imm) (.body (words + 1))
  | pushLoad (words : Nat) (address : Address) :
      Goes (.body words) (.pushLoad address) (.body (words + 1))
  | reserve (words : Nat) : Goes (.body words) (.aluImm .sub .i64 .rsp 8) (.body (words + 1))
  | put {words : Nat} (some : 0 < words) (type : ValueType) (src : Register) :
      Goes (.body words) (.floatStore type (.based .rsp 0) src) (.body words)
  | call (reg : Register) : Goes (.body 0) (.callReg reg) (.body 0)
  | callOver {words : Nat} (some : 0 < words) (even : words % 2 = 0) (reg : Register) :
      Goes (.body words) (.callReg reg) (.called words)
  | drop (words : Nat) :
      Goes (.called words) (.aluImm .add .i64 .rsp (Int32.ofInt (8 * words))) (.body 0)
  | close : Goes (.body 0) (.mov .i64 .rsp .rbp) .closing
  | restore : Goes .closing (.pop .rbp) .closed
  | leave : Goes .closed .ret (.body 0)
  | yield (address : Address) (ordinary : address.base.Ordinary) :
      Goes (.body 0) (.load .i64 .rsp address) .gone
  | resume (address : Address) : Goes .gone (.jmpLoad address) (.body 0)

theorem goes_of_stir {words : Nat} {instruction : Instruction} {next : Stage}
    (admits : stir words instruction = some next) : Goes (.body words) instruction next := by
  unfold stir at admits
  split at admits
  case h_1 reg =>
      cases admits
      exact .push words reg
  case h_2 imm =>
      cases admits
      exact .pushImm words imm
  case h_3 address =>
      cases admits
      exact .pushLoad words address
  case h_4 reg =>
      split at admits
      · cases admits
      · split at admits
        · rename_i none
          subst none
          cases admits
          exact .call reg
        · cases admits
          exact .callOver (by omega) (by omega) reg
  case h_5 op type dst imm =>
      split at admits
      · rename_i same
        obtain ⟨rfl, rfl, rfl, rfl⟩ := same
        cases admits
        exact .reserve words
      · cases admits
  case h_6 type address src =>
      split at admits
      · rename_i same
        obtain ⟨rfl, some⟩ := same
        cases admits
        exact .put some type src
      · cases admits
  case h_7 type dst src =>
      split at admits
      · rename_i same
        obtain ⟨rfl, rfl, rfl, rfl⟩ := same
        cases admits
        exact .close
      · cases admits
  case h_8 type dst address =>
      split at admits
      · rename_i same
        obtain ⟨rfl, rfl, ordinary, rfl⟩ := same
        cases admits
        exact .yield address ordinary
      · cases admits
  case h_9 => cases admits

theorem goes_of_after {stage next : Stage} {instruction : Instruction}
    (admits : stage.after instruction = some next) : Goes stage instruction next := by
  cases stage with
  | entry =>
    obtain ⟨rfl, ⟨⟩⟩ := Option.ite_none_right_eq_some.mp admits
    exact .save
  | saved =>
    obtain ⟨rfl, ⟨⟩⟩ := Option.ite_none_right_eq_some.mp admits
    exact .base
  | based =>
    cases instruction
    case enterFrame size =>
      cases admits
      exact .enter size
    all_goals cases admits
  | body words =>
    rw [after, inside] at admits
    split at admits
    · rename_i steady
      cases admits
      exact .steady steady
    · exact goes_of_stir admits
  | called words =>
    obtain ⟨rfl, ⟨⟩⟩ := Option.ite_none_right_eq_some.mp admits
    exact .drop words
  | closing =>
    obtain ⟨rfl, ⟨⟩⟩ := Option.ite_none_right_eq_some.mp admits
    exact .restore
  | closed =>
    obtain ⟨rfl, ⟨⟩⟩ := Option.ite_none_right_eq_some.mp admits
    exact .leave
  | gone =>
    cases instruction
    case jmpLoad address =>
      cases admits
      exact .resume address
    all_goals cases admits

/-- Jumps and the places they lead to are inside the frame. -/
def rest? (stage : Stage) : Option Stage := if stage = .body 0 then some stage else none

def pass (stage : Stage) : Step → Option Stage
  | .emit instruction => stage.after instruction
  | .jump _ _ | .jumpIf _ _ _ | .bind _ => stage.rest?
  | .fail _ => some stage

/-- The stage behind a sequence of steps. -/
def through (stage : Stage) (steps : List Step) : Option Stage := steps.foldlM pass stage

theorem through_cons {stage next : Stage} {step : Step} {rest : List Step} :
    stage.through (step :: rest) = some next ↔
      ∃ middle, stage.pass step = some middle ∧ middle.through rest = some next := by
  rw [through, List.foldlM_cons]
  exact Option.bind_eq_some_iff

/-- The stage behind a listing, latest item first. -/
def behind : List Placed → Option Stage
  | [] => some .entry
  | ⟨_, .plain instruction⟩ :: rest => (behind rest).bind (·.after instruction)
  | ⟨_, .jump _ _⟩ :: rest => (behind rest).bind rest?

end Stage

theorem Instruction.Tame.steady {slots : Int} {instruction : Instruction}
    (tame : instruction.Tame slots) : instruction.steady = true := by
  have writes : decide (∀ reg ∈ instruction.written, reg.Ordinary) = true :=
    decide_eq_true tame.writes
  have apart : instruction.operand?.all (fun address => address.base ≠ .rsp) = true := by
    cases found : instruction.operand? with
    | none => rfl
    | some address => simpa using (tame.operand address found).1
  rw [Instruction.steady, writes, apart, tame.goes]
  rfl

namespace Stage

theorem inside_of_steady {instruction : Instruction} (steady : instruction.steady = true)
    (words : Nat) : (Stage.body words).after instruction = some (.body words) :=
  if_pos steady

theorem through_emits {slots : Int} {steps : List Step} (tame : Sequence.Tame slots steps)
    (straight : Sequence.Straight steps) (words : Nat) :
    (Stage.body words).through steps = some (.body words) := by
  induction steps with
  | nil => rfl
  | cons step rest ih =>
    rw [Sequence.tame_cons_iff] at tame
    have others := ih tame.2 fun other member => straight other (List.mem_cons_of_mem _ member)
    refine through_cons.mpr ⟨_, ?_, others⟩
    have free := (straight step List.mem_cons_self).1
    cases step with
    | emit instruction => exact inside_of_steady tame.1.steady words
    | fail error => rfl
    | _ => cases free

theorem through_tame {slots : Int} {steps : List Step} (tame : Sequence.Tame slots steps) :
    (Stage.body 0).through steps = some (.body 0) := by
  induction steps with
  | nil => rfl
  | cons step rest ih =>
    rw [Sequence.tame_cons_iff] at tame
    refine through_cons.mpr ⟨_, ?_, ih tame.2⟩
    cases step with
    | emit instruction => exact inside_of_steady tame.1.steady 0
    | _ => rfl

end Stage

/-! ## Charted code

A chart of code is its listing together with what holds of every item: the stages it passes, the
frame slots it touches and the addresses that are filled in later.  A position where code rests is
one where it is inside the frame and nothing is pushed; every place that a jump leads to is such a
position.  Emitting, jumping and fixing labels keep a chart.
-/

/-- An instruction whose operand, if it lies in the frame, is one of a number of slots or an
argument of the caller. -/
def Instruction.Inside (slots : Int) (instruction : Instruction) : Prop :=
  ∀ address, instruction.operand? = some address → address.Within slots

/-- An item that stays inside the frame and, if it loads a whole address, loads the placeholder. -/
def Item.Inside (slots : Int) : Item → Prop
  | .plain instruction => instruction.Inside slots ∧ (instruction.isWide = true →
      ∃ target, target.isGp = true ∧ instruction = .movabs target placeholder)
  | .jump _ _ => True

/-- A step that stays inside the frame and loads no whole address. -/
def Step.Inside (slots : Int) : Step → Prop
  | .emit instruction => instruction.Inside slots ∧ instruction.isWide = false
  | _ => True

theorem Step.Inside.mono {few many : Int} {step : Step} (inside : step.Inside few)
    (fewer : few ≤ many) : step.Inside many := by
  cases step with
  | emit instruction =>
    exact ⟨fun address found => (inside.1 address found).mono fewer, inside.2⟩
  | _ => trivial

theorem Step.Tame.inside {slots : Int} {step : Step} (tame : step.Tame slots) :
    step.Inside slots := by
  cases step with
  | emit instruction =>
    exact ⟨fun address found => (Instruction.Tame.operand tame address found).2,
      Instruction.Tame.narrow tame⟩
  | _ => trivial

namespace Placed

/-- Where an item ends. -/
def finish (placed : Placed) : Nat :=
  match placed.item with
  | .plain instruction => placed.offset + instruction.length
  | .jump condition distance =>
    placed.offset + (Item.jumpOpcode condition distance).length + distance.width

/-- Where the address lies that an item loads. -/
def wide? (placed : Placed) : Option Int :=
  match placed.item with
  | .plain instruction => if instruction.isWide then some (placed.offset + 2) else none
  | .jump _ _ => none

theorem Stands.finish_eq {code : Code} {placed : Placed} {last : Nat}
    (stands : placed.Stands code last) : placed.finish = last := by
  cases stands with
  | plain _ encodes holds => exact congrArg (_ + ·) (Instruction.length_eq encodes)
  | jump => rfl

end Placed

/-- Where a listing ends. -/
def Placed.finishOf : List Placed → Nat
  | [] => 0
  | placed :: _ => placed.finish

/-- Where the addresses lie that the items of a listing load, latest first. -/
def Placed.wides (listing : List Placed) : List Int := listing.filterMap Placed.wide?

theorem Placed.wides_plain (offset : Nat) (instruction : Instruction) (listing : List Placed) :
    wides (⟨offset, .plain instruction⟩ :: listing) =
      if instruction.isWide then (offset + 2 : Int) :: wides listing else wides listing := by
  cases wide : instruction.isWide with
  | true => exact List.filterMap_cons_some (by rw [wide?]; exact if_pos wide)
  | false => exact List.filterMap_cons_none (by rw [wide?]; exact if_neg (Bool.eq_false_iff.mp wide))

namespace Code.Listed

variable {code : Code} {listing before : List Placed} {finish : Nat}

theorem finish_eq (listed : code.Listed listing finish) : Placed.finishOf listing = finish := by
  cases listed with
  | nil => rfl
  | cons before stands => exact stands.finish_eq

theorem suffix (listed : code.Listed listing finish) (earlier : before <:+ listing) :
    code.Listed before (Placed.finishOf before) := by
  induction listed with
  | nil =>
    rw [List.suffix_nil.mp earlier]
    exact .nil
  | @cons placed rest finish older stands ih =>
    cases List.suffix_cons_iff.mp earlier with
    | inl whole =>
      subst whole
      rw [Placed.finishOf, stands.finish_eq]
      exact .cons older stands
    | inr within => exact ih within

end Code.Listed

/-- A position of a listing where code is inside the frame with nothing pushed. -/
def Rests (listing : List Placed) (position : Nat) : Prop :=
  ∃ before, before <:+ listing ∧ Placed.finishOf before = position ∧
    Stage.behind before = some (.body 0)

theorem Rests.mono {listing more : List Placed} {position : Nat} (rests : Rests listing position)
    (longer : listing <:+ more) : Rests more position := by
  obtain ⟨before, within, ends, stage⟩ := rests
  exact ⟨before, within.trans longer, ends, stage⟩

theorem Rests.cons {listing : List Placed} {position : Nat} (rests : Rests listing position)
    (placed : Placed) : Rests (placed :: listing) position :=
  rests.mono (List.suffix_cons placed listing)

/-- Code with its listing, the fields that wait for labels, those that lead to a position, the
places of addresses and the stage at its end. -/
structure Charted (slots : Int) (awaited : Label → Prop) (code : Code) (refs : List Int)
    (listing : List Placed) (pending : List Use) (settled : List Landing) (stage : Stage) :
    Prop where
  assembled : Code.Assembled code listing pending settled
  stage : Stage.behind listing = some stage
  awaits : ∀ use ∈ pending, awaited use.target
  lands : ∀ landing ∈ settled, Rests listing landing.position
  bound : ∀ label position, (code.label label).state = .bound position → Rests listing position
  inside : ∀ placed ∈ listing, placed.item.Inside slots
  refs : Placed.wides listing = refs

namespace Charted

open Code (Assembled landings waiting)

variable {slots : Int} {awaited : Label → Prop} {code : Code} {refs : List Int}
  {listing : List Placed} {pending : List Use} {settled : List Landing} {stage next : Stage}

theorem sound (charted : Charted slots awaited code refs listing pending settled stage) :
    code.error = none :=
  charted.assembled.linked.sound

theorem finish (charted : Charted slots awaited code refs listing pending settled stage) :
    Placed.finishOf listing = code.size :=
  charted.assembled.listed.finish_eq

theorem rests (charted : Charted slots awaited code refs listing pending settled (.body 0)) :
    Rests listing code.size :=
  ⟨listing, List.suffix_refl listing, charted.finish, charted.stage⟩

theorem mono {more : Label → Prop}
    (charted : Charted slots awaited code refs listing pending settled stage)
    (implies : ∀ label, awaited label → more label) :
    Charted slots more code refs listing pending settled stage :=
  { charted with awaits := fun use member => implies _ (charted.awaits use member) }

theorem emit (charted : Charted slots awaited code refs listing pending settled stage)
    {instruction : Instruction} (declared : instruction.Declared)
    (goes : stage.after instruction = some next)
    (inside : (Item.plain instruction).Inside slots)
    (fine : (code.emit instruction).error = none) :
    Charted slots awaited (code.emit instruction)
      (if instruction.isWide then (code.size + 2 : Int) :: refs else refs)
      (⟨code.size, .plain instruction⟩ :: listing) pending settled next := by
  cases encodes : instruction.encode with
  | error error =>
    rw [Code.emit, encodes] at fine
    exact absurd fine (Code.fail_error code error)
  | ok bytes =>
    have appended : code.emit instruction = code.append bytes := by rw [Code.emit, encodes]
    rw [appended]
    constructor
    · exact charted.assembled.emit declared encodes
    · rw [Stage.behind, charted.stage]
      exact goes
    · exact charted.awaits
    · intro landing member
      exact (charted.lands landing member).cons _
    · intro label position state
      rw [Code.label, Code.labels_append] at state
      exact (charted.bound label position state).cons _
    · intro placed member
      cases List.mem_cons.mp member with
      | inl here => exact here ▸ inside
      | inr there => exact charted.inside placed there
    · rw [Placed.wides_plain, charted.refs]

theorem jump (charted : Charted slots awaited code refs listing pending settled (.body 0))
    {condition : Option Condition} (declared : ∀ given ∈ condition, given.code < 16)
    {target : Label} {distance : Distance} (waits : awaited target)
    (known : target.index < code.labels.size)
    (fine : (code.jumpWith (Item.jumpOpcode condition .near) (Item.jumpOpcode condition .far)
      target distance).error = none)
    (small : (code.jumpWith (Item.jumpOpcode condition .near) (Item.jumpOpcode condition .far)
      target distance).size < 2147483648) :
    ∃ width pending settled, Charted slots awaited
      (code.jumpWith (Item.jumpOpcode condition .near) (Item.jumpOpcode condition .far)
        target distance) refs (⟨code.size, .jump condition width⟩ :: listing) pending settled
      (.body 0) := by
  obtain ⟨width, jumped⟩ := charted.assembled.jump declared known fine small
  have stage : Stage.behind (⟨code.size, .jump condition width⟩ :: listing) =
      some (.body 0) := by
    rw [Stage.behind, charted.stage]
    rfl
  have inside : ∀ placed ∈ (⟨code.size, .jump condition width⟩ :: listing),
      placed.item.Inside slots :=
    List.forall_mem_cons.mpr ⟨trivial, charted.inside⟩
  have fixed : ∀ label position, (Code.label (code.jumpWith (Item.jumpOpcode condition .near)
      (Item.jumpOpcode condition .far) target distance) label).state = .bound position →
      Rests (⟨code.size, .jump condition width⟩ :: listing) position := by
    intro label position bound
    exact (charted.bound label position (Code.bound_jumpWith known fine bound)).cons _
  have lands : ∀ landing ∈ settled,
      Rests (⟨code.size, .jump condition width⟩ :: listing) landing.position :=
    fun landing member => (charted.lands landing member).cons _
  refine ⟨width, ?_⟩
  cases jumped with
  | inl waiting =>
    exact ⟨_, _, waiting.2.2, stage, List.forall_mem_cons.mpr ⟨waits, charted.awaits⟩, lands,
      fixed, inside, charted.refs⟩
  | inr landing =>
    obtain ⟨position, bound, assembled⟩ := landing
    have here := (charted.bound target position bound).cons ⟨code.size, .jump condition width⟩
    exact ⟨_, _, assembled, stage, charted.awaits, List.forall_mem_cons.mpr ⟨here, lands⟩,
      fixed, inside, charted.refs⟩

theorem bind (charted : Charted slots awaited code refs listing pending settled (.body 0))
    {target : Label} (known : target.index < code.labels.size)
    (fine : (code.bind target).error = none) (small : code.size < 2147483648) :
    Charted slots awaited (code.bind target) refs listing (waiting pending target)
      (landings pending target code.size ++ settled) (.body 0) := by
  obtain ⟨unbound, _⟩ := charted.assembled.linked.bind_fine small fine
  constructor
  · exact charted.assembled.bind known fine small
  · exact charted.stage
  · intro use member
    exact charted.awaits use (List.mem_filter.mp member).1
  · intro landing member
    cases List.mem_append.mp member with
    | inl here =>
      obtain ⟨use, _, rfl⟩ := List.mem_map.mp here
      exact charted.rests
    | inr there => exact charted.lands landing there
  · intro label position bound
    rw [Code.label_bind known unbound] at bound
    split at bound
    · cases bound
      exact charted.rests
    · exact charted.bound label position bound
  · exact charted.inside
  · exact charted.refs

/-- Labels that no field waits for are added to the table or dropped from it. -/
theorem relabel (charted : Charted slots awaited code refs listing pending settled stage)
    {labels : Array LabelInfo} (others : ∀ target,
      Code.label { code with labels } target = code.label target ∨
        Code.label { code with labels } target = {} ∧ ∀ use ∈ pending, use.target ≠ target) :
    Charted slots awaited { code with labels } refs listing pending settled stage := by
  refine { charted with assembled := charted.assembled.relabel others, bound := ?_ }
  intro label position bound
  cases others label with
  | inl same => exact charted.bound label position (same ▸ bound)
  | inr dropped =>
    rw [dropped.1] at bound
    cases bound

theorem reserve (charted : Charted slots awaited code refs listing pending settled stage)
    (count : Nat) : Charted slots awaited (code.reserve count) refs listing pending settled stage :=
  charted.relabel fun target => .inl (Code.label_reserve code count target)

theorem shrink (charted : Charted slots awaited code refs listing pending settled stage)
    {base : Nat} (kept : ∀ use ∈ pending, use.target.index < base) :
    Charted slots awaited { code with labels := code.labels.shrink base } refs listing pending
      settled stage :=
  charted.relabel fun target => (Code.label_shrink code base target).imp_right fun dropped =>
    ⟨dropped.2, fun use member same => dropped.1 (same ▸ kept use member)⟩

section Place

variable {labels : List Label} {places : List Nat} {base : Nat}

/-- The labels that fields may wait for while a sequence is placed: those of the table before,
and the inner places of the sequence. -/
def Pends (base : Nat) (places : List Nat) (label : Label) : Prop :=
  label.index < base ∨ ∃ number ∈ places, label = ⟨base + number⟩

theorem pends_resolve {target : Target} {distance : Distance}
    (known : ∀ label ∈ labels, label.index < base)
    (inner : ∀ number ∈ places, base + number < code.labels.size) (wide : base ≤ code.labels.size)
    (resolves : target.Known labels places distance) :
    Pends base places (Code.resolve base target) ∧
      (Code.resolve base target).index < code.labels.size := by
  cases target with
  | missing => cases resolves
  | label label =>
    have below := known label resolves.1
    exact ⟨.inl below, Nat.lt_of_lt_of_le below wide⟩
  | inner number => exact ⟨.inr ⟨number, resolves, rfl⟩, inner number resolves⟩

theorem placeStep
    (charted : Charted slots (Pends base places) code refs listing pending settled stage)
    {step : Step} (known : ∀ label ∈ labels, label.index < base)
    (inner : ∀ number ∈ places, base + number < code.labels.size) (wide : base ≤ code.labels.size)
    (resolves : step.Resolves labels places) (inside : step.Inside slots)
    (goes : stage.pass step = some next)
    (fine : (Code.placeStep base code step).error = none)
    (small : (Code.placeStep base code step).size < 2147483648) :
    ∃ front pending settled, Charted slots (Pends base places) (Code.placeStep base code step)
        refs (front ++ listing) pending settled next ∧
      ∀ number, step = .bind (.inner number) →
        ((Code.placeStep base code step).label ⟨base + number⟩).isBound = true := by
  have resting {rest : Stage} (rests : stage.rest? = some rest) : stage = .body 0 ∧ rest = stage := by
    unfold Stage.rest? at rests
    split at rests
    · rename_i same
      exact ⟨same, (Option.some.inj rests).symm⟩
    · cases rests
  cases step with
  | emit instruction =>
    have narrow := Bool.eq_false_iff.mp inside.2
    have emitted := charted.emit resolves goes ⟨inside.1, fun wide => absurd wide narrow⟩ fine
    rw [if_neg narrow] at emitted
    exact ⟨[_], _, _, emitted, by simp⟩
  | jump target distance =>
    obtain ⟨rfl, rfl⟩ := resting goes
    obtain ⟨waits, below⟩ := pends_resolve known inner wide resolves
    have declared : ∀ given ∈ (none : Option Condition), given.code < 16 := nofun
    obtain ⟨width, pending, settled, jumped⟩ := charted.jump declared waits below fine small
    exact ⟨[_], _, _, jumped, by simp⟩
  | jumpIf condition target distance =>
    obtain ⟨rfl, rfl⟩ := resting goes
    obtain ⟨waits, below⟩ := pends_resolve known inner wide resolves.2
    have declared : ∀ given ∈ some condition, given.code < 16 := by simpa using resolves.1
    obtain ⟨width, pending, settled, jumped⟩ := charted.jump declared waits below fine small
    exact ⟨[_], _, _, jumped, by simp⟩
  | fail error => exact absurd fine (Code.fail_error code error)
  | bind target =>
    obtain ⟨rfl, rfl⟩ := resting goes
    obtain ⟨number, member, rfl⟩ := resolves
    have shorter := (Code.Extends.bind code (Code.resolve base (.inner number))).size
    have bound := charted.bind (inner number member) fine (Nat.lt_of_le_of_lt shorter small)
    refine ⟨[], _, _, bound, ?_⟩
    intro other same
    cases same
    exact Code.isBound_bind (inner number member)

theorem placeSteps
    (charted : Charted slots (Pends base places) code refs listing pending settled stage)
    {steps : List Step} (known : ∀ label ∈ labels, label.index < base)
    (inner : ∀ number ∈ places, base + number < code.labels.size) (wide : base ≤ code.labels.size)
    (resolves : ∀ step ∈ steps, step.Resolves labels places)
    (inside : ∀ step ∈ steps, step.Inside slots) (goes : stage.through steps = some next)
    (fine : (steps.foldl (Code.placeStep base) code).error = none)
    (small : (steps.foldl (Code.placeStep base) code).size < 2147483648) :
    ∃ front pending settled, Charted slots (Pends base places)
        (steps.foldl (Code.placeStep base) code) refs (front ++ listing) pending settled next ∧
      ∀ number, Step.bind (.inner number) ∈ steps →
        ((steps.foldl (Code.placeStep base) code).label ⟨base + number⟩).isBound = true := by
  induction steps generalizing code listing pending settled stage with
  | nil =>
    cases goes
    exact ⟨[], _, _, charted, by simp⟩
  | cons step rest ih =>
    obtain ⟨middle, first, others⟩ := Stage.through_cons.mp goes
    have here := Code.Extends.placeStep base code step
    have later := Code.Extends.placeSteps base rest (Code.placeStep base code step)
    obtain ⟨front, _, _, placed, fixed⟩ := charted.placeStep known inner wide
      (resolves step List.mem_cons_self) (inside step List.mem_cons_self) first
      (later.error fine) (Nat.lt_of_le_of_lt later.size small)
    obtain ⟨more, _, _, final, bound⟩ := ih placed
      (fun number member => Nat.lt_of_lt_of_le (inner number member) here.count)
      (Nat.le_trans wide here.count)
      (fun other member => resolves other (List.mem_cons_of_mem _ member))
      (fun other member => inside other (List.mem_cons_of_mem _ member)) others fine small
    refine ⟨more ++ front, _, _, by rw [List.append_assoc]; exact final, ?_⟩
    intro number member
    cases List.mem_cons.mp member with
    | inl same =>
      obtain ⟨position, state⟩ := LabelInfo.isBound_iff.mp (fixed number same.symm)
      exact LabelInfo.isBound_iff.mpr ⟨position, later.bound _ _ state⟩
    | inr there => exact bound number there

theorem place {steps : List Step}
    (charted : Charted slots (·.index < code.labels.size) code refs listing pending settled stage)
    (closed : Sequence.Closed labels steps) (known : ∀ label ∈ labels, label.index < code.labels.size)
    (inside : ∀ step ∈ steps, step.Inside slots) (goes : stage.through steps = some next)
    (fine : (code.place steps).error = none) (small : (code.place steps).size < 2147483648) :
    ∃ front pending settled, Charted slots (·.index < (code.place steps).labels.size)
      (code.place steps) refs (front ++ listing) pending settled next := by
  have grows := (Code.Extends.place code steps).count
  obtain ⟨places, resolves, fixes⟩ := closed
  have inner : ∀ number ∈ places, code.labels.size + number <
      (code.reserve (Step.innerCount steps)).labels.size := by
    intro number member
    have counted := Step.innerPlaces_le (fixes number member)
    rw [Code.reserve, Array.size_append, Array.size_replicate]
    exact Nat.add_lt_add_left counted _
  rw [Code.place_eq resolves] at fine small grows ⊢
  have outer (label : Label) (below : label.index < code.labels.size) :
      Pends code.labels.size places label := .inl below
  have opened := (charted.reserve (Step.innerCount steps)).mono outer
  obtain ⟨front, pending, settled, placed, bound⟩ := opened.placeSteps known inner
    (Code.Extends.grow code _).count resolves inside goes fine small
  -- the places of the sequence are fixed, so nothing waits for them
  have kept : ∀ use ∈ pending, use.target.index < code.labels.size := by
    intro use member
    cases placed.awaits use member with
    | inl outer => exact outer
    | inr inside =>
      obtain ⟨number, place, target⟩ := inside
      have unbound := placed.assembled.linked.unbound use member
      rw [target, bound number (fixes number place)] at unbound
      cases unbound
  refine ⟨front, pending, settled, ?_⟩
  refine { placed.shrink kept with awaits := ?_ }
  intro use member
  exact Nat.lt_of_lt_of_le (kept use member) grows

end Place

end Charted

end WasmX64
