import WasmX64.Proofs.Compile.Calm
import WasmX64.Proofs.Flow.Tables

/-!
# The progress of a compilation

Lowering an instruction goes on in the body as its opcode says.  The source map and the count of
instructions stay as they are, and code and stubs are added.  Every round of the driver brings
the end of the body closer.
-/

/-!
## Instructions with faults have code

An instruction that registers a stub also adds code, so the entry of the source map under
which it was lowered is not replaced by that of the next instruction.
-/

namespace WasmX64

namespace Step

/-- Steps that add a byte to the code or stop it. -/
def advances : Step → Bool
  | .emit _ | .fail _ => true
  | .jump target _ => target ≠ .missing
  | .jumpIf _ target _ => target ≠ .missing
  | .bind _ => false

end Step

namespace Code

/-- Code that is beyond an offset, unless it has an error. -/
def Past (offset : Nat) (code : Code) : Prop := code.error = none → offset < code.size

variable {code after : Code} {offset : Nat}

theorem Past.extends (past : Past offset code) (grows : code.Extends after) :
    Past offset after :=
  fun fine => Nat.lt_of_lt_of_le (past (grows.error fine)) grows.size

theorem past_append {bytes : List UInt8} (behind : offset ≤ code.size) (some : bytes ≠ []) :
    Past offset (code.append bytes) := by
  intro fine
  rw [error_append] at fine
  rw [size_append fine]
  have := List.length_pos_iff.mpr some
  omega

theorem past_fail (code : Code) (error : CodeError) : Past offset (code.fail error) :=
  fun fine => absurd fine (fail_error code error)

theorem past_emit {instruction : Instruction} (behind : offset ≤ code.size) :
    Past offset (code.emit instruction) := by
  cases encodes : instruction.encode with
  | error error =>
    rw [Code.emit, encodes]
    exact past_fail code error
  | ok bytes =>
    rw [Code.emit, encodes]
    apply past_append behind
    intro none
    rw [none] at encodes
    exact instruction.encode_fills encodes

theorem past_jumpWith {short long : List UInt8} {target : Label} {distance : Distance}
    (behind : offset ≤ code.size) (some : short ≠ []) (others : long ≠ []) :
    Past offset (code.jumpWith short long target distance) := by
  unfold jumpWith
  split
  · dsimp only
    split
    · exact past_append behind (by simp)
    · split
      · exact past_fail code _
      · exact past_append behind (by simp [others])
  · split
    · exact (past_append behind some).extends (.linkNear _ _)
    · exact (past_append behind others).extends (.linkFar _ _)

theorem past_placeStep {base : Nat} {step : Step} (behind : offset ≤ code.size)
    (advances : step.advances = true) : Past offset (placeStep base code step) := by
  cases step with
  | emit instruction => exact past_emit behind
  | jump target distance => exact past_jumpWith behind (by simp) (by simp)
  | jumpIf condition target distance => exact past_jumpWith behind (by simp) (by simp)
  | bind target => cases advances
  | fail error => exact past_fail code error

theorem past_place {steps : List Step} (behind : offset ≤ code.size)
    (advances : steps.head?.any Step.advances = true) : Past offset (code.place steps) := by
  cases steps with
  | nil => cases advances
  | cons step rest =>
    have advance : step.advances = true := advances
    have complete : step.isComplete = true := by
      cases step with
      | emit instruction => rfl
      | jump target distance =>
        simpa [Step.isComplete, Step.target?, Step.advances] using advance
      | jumpIf condition target distance =>
        simpa [Step.isComplete, Step.target?, Step.advances] using advance
      | bind target => cases advance
      | fail error => rfl
    unfold place
    rw [List.takeWhile_cons_of_pos complete]
    dsimp only
    generalize Array.replicate _ _ = inner
    rw [List.foldl_cons]
    have first : Past offset
        (placeStep code.labels.size { code with labels := code.labels ++ inner } step) :=
      past_placeStep behind advance
    have others := first.extends
      (.placeSteps code.labels.size (rest.takeWhile Step.isComplete) _)
    exact fun fine => others fine

end Code

namespace Compile

variable {α β : Type} {holds : Code → Prop} {start : Nat}

def OfCode (holds : Code → Prop) (_ : Subject) (state : Compilation) : Prop :=
  holds state.output.code

/-- Growing code keeps a property. -/
class Lasting (holds : Code → Prop) : Prop where
  grow : ∀ {code after : Code}, holds code → code.Extends after → holds after

instance (start : Nat) : Lasting (Code.Past start) := ⟨fun past grows => past.extends grows⟩

instance (start : Nat) : Lasting (start ≤ ·.size) :=
  ⟨fun behind grows => Nat.le_trans behind grows.size⟩

theorem Lasting.keeps [lasting : Lasting holds] {change : Compilation → Compilation}
    (grows : ∀ state : Compilation, state.output.code.Extends (change state).output.code) :
    Keeps (OfCode holds) (modify change) anything :=
  Keeps.modify fun _ state held => lasting.grow held (grows state)

theorem OfCode.record (what : Happening) : Keeps (OfCode holds) (record what) anything :=
  Keeps.read.andThen fun _ => Keeps.modify fun _ _ held => held

instance [lasting : Lasting holds] :
    Law (Unbounded (Kept (OfCode holds))) (fun _ _ => True) (fun _ => True) False where
  askNames each _ := Keeps.read.andThen fun subject => each subject fun _ _ _ => trivial
  emit steps := Lasting.keeps fun _ => .place _ steps
  lone _ _ := trivial
  loadRef _ _ _ _ := Lasting.keeps fun _ => by
    dsimp only
    rw [Code.loadWide_eq]
    exact .emit _ _
  newLabel := Keeps.modifyGet fun _ _ held => lasting.grow held (.newLabel _)
  note silent _ _ := Keeps.modify fun _ state held => by
    rw [OfCode, (silent state).code]
    exact held
  transfer _ within := fun subject state held => by
    refine (transfer_adds _ within.calm).mono ?_
    rintro _ _ ⟨output, adds, rfl⟩
    exact ⟨lasting.grow held adds.extends, trivial⟩
  machine _ _ _ inside := Keeps.machine OfCode.record inside
  block _ := OfCode.record _

/-- An action that gets the code past an offset it has reached. -/
def Advances (action : Compile α) : Prop :=
  ∀ start subject state, start ≤ state.output.code.size →
    Ensures action subject state fun _ after => after.output.code.Past start

namespace Advances

variable {action : Compile α} {next : α → Compile β}

/-- What comes before adds nothing that could be lost. -/
theorem after (keeps : ∀ start, Keeps (OfCode (start ≤ ·.size)) action anything)
    (advances : ∀ value, Advances (next value)) : Advances (action >>= next) := by
  intro start subject state behind
  refine (keeps start subject state behind).andThen ?_
  rintro value middle ⟨behind, _⟩
  exact advances value start subject middle behind

/-- What comes behind takes nothing away. -/
theorem before (advances : Advances action)
    (keeps : ∀ start value, Keeps (OfCode (Code.Past start)) (next value) anything) :
    Advances (action >>= next) := by
  intro start subject state behind
  refine (advances start subject state behind).andThen ?_
  intro value middle past
  exact (keeps start value subject middle past).mono fun _ _ kept => kept.1

theorem throw {fault : Fault} : Advances (throw fault : Compile α) :=
  fun _ _ _ _ => ensures_throw

theorem emit {steps : List Step} (starts : steps.head?.any Step.advances = true) :
    Advances (Compile.emit steps) := by
  intro start subject state behind
  exact ensures_emit.mpr (Code.past_place behind starts)

theorem loadRef (target : Register) (kind : RefKind) (index : UInt32) :
    Advances (Compile.loadRef target kind index) := by
  intro start subject state behind
  refine ensures_modify.mpr ?_
  dsimp only
  rw [Code.loadWide_eq]
  exact Code.past_emit behind

theorem machine {event : MachineEvent} {action : Compile Unit} (advances : Advances action) :
    Advances (machine event action) := by
  refine after (fun _ => OfCode.record _) fun _ => ?_
  exact before advances fun _ _ => OfCode.record _

end Advances

section Lower

theorem division_starts (part : Sequence.DivisionPart) (type : ValueType) (signed : Bool)
    (dst left right : Register) (zero overflow : Target) :
    (Sequence.division part type signed dst left right zero overflow).head?.any
      Step.advances = true := by
  unfold Sequence.division
  split
  · rfl
  · split
    · rfl
    · dsimp only
      by_cases moved : right = .rax ∨ right = .rdx
      · simp [moved, Step.advances]
      · simp [moved, Step.advances]

theorem truncate_starts (target source : ValueType) (signed : Bool) (dst src : Register)
    (trap : Target) :
    (Sequence.truncate target source signed dst src trap).head?.any Step.advances = true := by
  unfold Sequence.truncate
  split
  · rfl
  · rfl

theorem advances_division (part : Sequence.DivisionPart) (type : ValueType) (signed : Bool) :
    Advances (lowerDivision part type signed) := by
  have finish : ∀ (left right : Register) (zero overflow : Label), Advances (do
      vacate .rax
      vacate .rdx
      let dst ← takeRegister .gp [left, right] RegSet.empty
      emit (Sequence.division part type signed dst left right zero overflow)
      pushRegister type dst) := by
    intro left right zero overflow
    refine .after (fun _ => .through (.vacate _)) fun _ => ?_
    refine .after (fun _ => .through (.vacate _)) fun _ => ?_
    refine .after (fun _ => .through (.takeRegister _ _ _)) fun dst => ?_
    refine .before (.emit (division_starts _ _ _ _ _ _ _ _)) fun _ _ => ?_
    exact .through (.push _)
  refine .after (fun _ => .through (.popOperands _)) fun operands => ?_
  refine .after (fun _ => .through (.addTrap trivial)) fun zero => ?_
  dsimp only
  split
  · refine .after (fun _ => .through (.addTrap trivial)) fun overflow => ?_
    exact finish _ _ _ _
  · exact finish _ _ _ _

theorem advances_truncation (result : IntWidth) (source : FloatWidth) (signed : Bool) :
    Advances (lowerConversion (.truncate result source signed)) := by
  refine .after (fun _ => .through (.expect _ _)) fun _ => ?_
  refine .after (fun _ => .through (.popRegister _)) fun src => ?_
  refine .after (fun _ => .through (.takeRegister _ _ _)) fun dst => ?_
  dsimp only
  rw [map_eq_pure_bind, bind_assoc]
  refine .after (fun _ => .through (.addTrap trivial)) fun trap => ?_
  rw [pure_bind]
  refine .before (.emit (truncate_starts _ _ _ _ _ _)) fun _ _ => ?_
  exact .through (.push _)

theorem advances_load (op : LoadOp) (offset : UInt32) : Advances (lowerLoad op offset) := by
  refine .after (fun _ => .through .demandMemory) fun _ => ?_
  refine .after (fun _ => .through (.expect _ _)) fun _ => ?_
  refine .after (fun _ => .through (.popRegister _)) fun register => ?_
  refine .after (fun _ => .through (.checkBounds _ _ _ trivial)) fun _ => .machine ?_
  refine .after (fun _ => .through (.takeRegister _ _ _)) fun base => ?_
  refine .before (.loadRef _ _ _) fun _ _ => ?_
  exact .through <| Obeys.andThen (.takeRegister _ _ _) fun dst =>
    .andThen (.emit _) fun _ => .andThen (.emit _) fun _ => .push _

theorem advances_store (op : StoreOp) (offset : UInt32) : Advances (lowerStore op offset) := by
  refine .after (fun _ => .through .demandMemory) fun _ => ?_
  refine .after (fun _ => .through (.expect _ _)) fun _ => .after (fun _ => .through (.expect _ _)) fun _ => ?_
  refine .after (fun _ => .through (.popRegister _)) fun value => ?_
  refine .after (fun _ => .through (.popRegister _)) fun register => ?_
  refine .after (fun _ => .through (.checkBounds _ _ _ trivial)) fun _ => .machine ?_
  refine .after (fun _ => .through (.takeRegister _ _ _)) fun base => ?_
  refine .before (.loadRef _ _ _) fun _ _ => ?_
  exact .through (Obeys.andThen (.emit _) fun _ => .emit _)

theorem advances_callIndirect (index : UInt32) : Advances (lowerCallIndirect index) := by
  refine .after (fun _ => Keeps.read) fun subject => ?_
  dsimp only
  split
  · exact .throw
  · rename_i type found
    refine .after (fun _ => Keeps.demand (.pure trivial)) fun signature => ?_
    refine .after (fun _ => .through (.expect _ _)) fun _ => ?_
    refine .after (fun _ => .through (.popRegister _)) fun entry => ?_
    refine .after (fun _ => .through (.takeRegister _ _ _)) fun table => ?_
    refine .after (fun _ => .through (.takeRegister _ _ _)) fun target => ?_
    refine .after (fun _ => .through (.addTrap trivial)) fun undefined => ?_
    refine .before (.loadRef _ _ _) fun start _ => ?_
    exact .through <| Obeys.andThen (.emit _) fun _ => .andThen (.addTrap trivial) fun mismatch =>
      .andThen (.loadLone _ rfl _) fun _ => .andThen (.emit _) fun _ =>
      .andThen (.loadLone _ rfl _) fun _ => .andThen (.emit _) fun _ =>
      .andThen (.prepareCall _ _ _) fun callee =>
      .andThen (.machine (by decide) (.emit _)) fun _ => .finishCall _

theorem advances_unreachable : Advances lowerUnreachable := by
  refine .after (fun _ => .through (.addTrap trivial)) fun label => ?_
  refine .before (.emit ?_) fun _ _ => Keeps.modify fun _ _ held => held
  simp [Step.advances]

/-- Every instruction with faults adds code. -/
theorem lower_advances {op : Opcode} (faults : op.faults ≠ []) (instr : Instr) :
    Advances (lower op instr) := by
  cases op
  case unreachable => exact advances_unreachable
  case load op => exact advances_load op _
  case store op => exact advances_store op _
  case callIndirect => exact advances_callIndirect _
  case intBinary width op =>
    rw [lower]
    cases op with
    | divS => exact advances_division _ _ _
    | divU => exact advances_division _ _ _
    | remS => exact advances_division _ _ _
    | remU => exact advances_division _ _ _
    | _ => exact absurd rfl faults
  case convert op =>
    cases op with
    | truncate result source signed => exact advances_truncation result source signed
    | _ => exact absurd rfl faults
  all_goals exact absurd rfl faults

end Lower

end Compile

end WasmX64

/-! ## Rounds of the driver -/

namespace WasmX64

/-- A compilation on its way from another state: the source map and the count of instructions are
as they were, and code and stubs have been added.  The stubs are for faults of the instruction
that is being lowered. -/
structure Compilation.Trail (before after : Compilation) : Prop where
  instr : after.instr = before.instr
  op : after.op = before.op
  sources : after.sources = before.sources
  grows : before.output.code.size ≤ after.output.code.size
  stubs : ∃ added, after.stubs.toList = before.stubs.toList ++ added ∧
    ∀ stub ∈ added, stub.instr = before.instr ∧ stub.kind ∈ before.op.faults

/-- A compilation on its way has its place in the body. -/
structure Course.Here (courses : List Course) (before : Compilation) (_ : Subject)
    (state : Compilation) : Prop extends before.Trail state where
  courses : state.courses = courses

namespace Compilation.Trail

variable {first second third before state after : Compilation}

theorem still (instr : after.instr = state.instr) (op : after.op = state.op)
    (sources : after.sources = state.sources) (stubs : after.stubs = state.stubs)
    (grows : state.output.code.size ≤ after.output.code.size) : state.Trail after :=
  ⟨instr, op, sources, grows, [], by simp [stubs], by simp⟩

theorem trans (left : first.Trail second) (right : second.Trail third) : first.Trail third := by
  obtain ⟨added, stubs, raised⟩ := left.stubs
  obtain ⟨more, others, further⟩ := right.stubs
  refine ⟨right.instr.trans left.instr, right.op.trans left.op, right.sources.trans left.sources,
    Nat.le_trans left.grows right.grows, added ++ more, ?_, fun stub member => ?_⟩
  · rw [others, stubs, List.append_assoc]
  · cases List.mem_append.mp member with
    | inl earlier => exact raised stub earlier
    | inr later => exact left.instr ▸ left.op ▸ further stub later

theorem keeps {change : Compilation → Compilation} (trails : ∀ state : Compilation, state.Trail (change state)) :
    Compile.Keeps (fun _ state => before.Trail state) (modify change) Compile.anything :=
  Compile.Keeps.modify fun _ state trail => trail.trans (trails state)

end Compilation.Trail

namespace Course

open Compilation (Trail)

theorem Here.start (subject : Subject) (state : Compilation) :
    Here state.courses state subject state :=
  ⟨.still rfl rfl rfl rfl (Nat.le_refl _), rfl⟩

theorem Here.follow {courses others : List Course} {before state after : Compilation}
    {subject : Subject} (here : Here courses before subject state) (trail : state.Trail after)
    (same : after.courses = others) : Here others before subject after :=
  ⟨here.toTrail.trans trail, same⟩

end Course

namespace Mark

theorem course_modify {change : Mark → Mark} (same : ∀ mark, (change mark).course = mark.course)
    (depth : Nat) (marks : List Mark) :
    (marks.modify depth change).map Mark.course = marks.map Mark.course := by
  apply List.ext_getElem?
  intro index
  simp only [List.getElem?_map, List.getElem?_modify]
  cases marks[index]? with
  | none => rfl
  | some mark =>
    simp only [Option.map_eq_map, Option.map_some]
    split
    · rw [same]
    · rfl

theorem course_target (depth : Nat) (marks : List Mark) :
    (target depth marks).map Mark.course = marks.map Mark.course := by
  unfold target
  split
  · rfl
  · refine course_modify (fun mark => ?_) depth marks
    unfold targeted
    split
    · rfl
    · rfl

/-- What is to come goes on by itself, whatever is noted of reachability. -/
theorem course_lower (host : Host) (op : Opcode) (instr : Instr) (marks : List Mark) :
    (lower host op instr marks).map Mark.course = Course.lower op instr (marks.map Mark.course) := by
  have ends (marks : List Mark) :
      (marks.modify 0 finished).map Mark.course = marks.map Mark.course :=
    @course_modify finished (fun _ => rfl) 0 marks
  have sheds (mark : Mark) : mark.demoted.course = mark.course := by
    unfold demoted
    split
    · rfl
    · rfl
  have tables (depths : List UInt32) (marks : List Mark) :
      (depths.foldl (fun marks depth => target depth.toNat marks) marks).map Mark.course =
        marks.map Mark.course := by
    induction depths generalizing marks with
    | nil => rfl
    | cons depth rest ih => exact (ih _).trans (course_target _ _)
  cases marks with
  | nil => cases op <;> rfl
  | cons mark outer =>
    cases op
    case br =>
      refine (ends _).trans ?_
      rw [apply_ite (List.map Mark.course), course_target, ite_self]
      rfl
    case brIf =>
      change List.map Mark.course (if _ then _ else _) = _
      rw [apply_ite (List.map Mark.course), course_target, ite_self]
      rfl
    case brTable =>
      refine (ends _).trans ?_
      rw [apply_ite (List.map Mark.course), tables, ite_self]
      rfl
    case load op =>
      change List.map Mark.course (if _ then _ else _) = _
      rw [apply_ite (List.map Mark.course), List.map_cons, sheds, List.map_cons, ite_self]
      rfl
    case store op =>
      change List.map Mark.course (if _ then _ else _) = _
      rw [apply_ite (List.map Mark.course), List.map_cons, sheds, List.map_cons, ite_self]
      rfl
    case otherwise =>
      change List.map Mark.course (if _ then _ else _) = if _ then _ else _
      rw [apply_ite (List.map Mark.course)]
      rfl
    case finish =>
      change List.map Mark.course (if _ then _ else _) = _
      rw [apply_ite (List.map Mark.course), course_modify sheds, ite_self]
      rfl
    all_goals rfl

end Mark

namespace Compile

open Compilation (Trail)
open Course

/-- An action on the way from a state. -/
def Trails (before : Compilation) ⦃α : Type⦄ (_ : Recording) (action : Compile α) : Prop :=
  Keeps (fun _ state => before.Trail state) action anything

variable {courses : List Course} {before : Compilation} {subject : Subject}
  {state : Compilation}

instance : Law (Unbounded (Trails before)) (fun _ _ => True) (· ∈ before.op.faults) False where
  pure _ := Keeps.pure trivial
  throw _ := Keeps.throw
  bind := Keeps.andThen
  mono trails _ := trails
  look each _ := Keeps.get.andThen fun state => each state False.elim
  askNames each _ := Keeps.read.andThen fun subject => each subject fun _ _ _ => trivial
  emit steps := Trail.keeps fun _ => .still rfl rfl rfl rfl (Code.Extends.place _ steps).size
  lone _ _ := trivial
  loadRef _ _ _ _ := Trail.keeps fun _ => .still rfl rfl rfl rfl <| by
    dsimp only
    rw [Code.loadWide_eq]
    exact (Code.Extends.emit _ _).size
  newLabel := Keeps.modifyGet fun _ _ trail =>
    trail.trans (.still rfl rfl rfl rfl (Nat.le_refl _))
  note silent _ _ := Keeps.modify fun _ state trail => by
    obtain ⟨code, _, instr, op, _, sources, added, stubs, raised⟩ := silent state
    refine trail.trans ⟨instr, op, sources, Nat.le_of_eq (congrArg Code.size code.symm), added,
      stubs, fun stub member => ?_⟩
    exact trail.op ▸ raised stub member
  transfer _ within := fun subject state trail => by
    refine (transfer_adds _ within.calm).mono ?_
    rintro _ _ ⟨output, adds, rfl⟩
    exact ⟨trail.trans (.still rfl rfl rfl rfl adds.extends.size), trivial⟩
  machine _ _ _ inside := Keeps.machine
    (fun _ => Keeps.read.andThen fun _ => Trail.keeps fun _ => .still rfl rfl rfl rfl (Nat.le_refl _))
    inside
  block _ := Keeps.read.andThen fun _ => Trail.keeps fun _ => .still rfl rfl rfl rfl (Nat.le_refl _)

/-- Lowering goes on in the body as its opcode says. -/
theorem lower_here {operands : Instr} {block : Block} {outer : List Block}
    (opened : state.blocks = block :: outer) (books : Books subject state)
    (here : Here courses before subject state) :
    Ensures (lower before.op operands) subject state fun _ after =>
      Here (Course.lower before.op operands courses) before subject after := by
  have trails : Obeys (Unbounded (Trails before)) .blocks 0 1 (lower before.op operands) :=
    Obeys.lower Recording.blocks_loud _ _ (fun _ => id) (.inl rfl)
  have noted : Noted (block.mark :: outer.map Block.mark) subject state := by
    rw [Noted, Compilation.marks, opened, List.map_cons]
  refine ((lower_noted before.op operands books noted).and
    (trails subject state here.toTrail)).mono ?_
  rintro _ after ⟨noted, trail, _⟩
  refine ⟨trail, ?_⟩
  rw [after.courses_marks, noted, Mark.course_lower, ← List.map_cons, ← opened,
    ← Compilation.marks, ← state.courses_marks, here.courses]

section Rounds

variable {block : Block} {outer : List Block}

theorem next_takes (opened : state.blocks = block :: outer) :
    Ensures (next block) subject state fun taken after =>
      taken = block.course.first ∧
        after = { state with blocks := { block with pending := block.pending.tail } :: outer } := by
  unfold next Course.first
  cases pending : block.pending with
  | nil =>
    rw [ensures_pure]
    refine ⟨by simp [Block.course, pending], ?_⟩
    rw [List.tail_nil, ← pending, ← opened]
  | cons instr rest =>
    rw [ensures_bind, ensures_modifyBlock, ensures_pure, opened, List.modify_zero_cons]
    exact ⟨by simp [Block.course, pending], rfl⟩

theorem step_dead {taken : Option Instr} {code : Opcode} (opened : state.blocks = block :: outer)
    (dead : block.reach = .unreachable ∧ code ≠ .finish ∧ code ≠ .otherwise) :
    Ensures (step taken code) subject state fun _ after =>
      after = { state with op := code, instr := state.instr + (taken.elim 0 Instr.count : Nat) } := by
  unfold step
  rw [ensures_bind, ensures_modify, ensures_bind]
  refine (@innermost_finds _ { state with op := code } _ _ opened).mono ?_
  rintro _ middle ⟨rfl, rfl⟩
  refine ensures_ite.mpr ⟨fun _ => ?_, fun alive => absurd dead alive⟩
  rw [ensures_modify]

theorem step_alive {taken : Option Instr} {code : Opcode} {post : Compilation → Prop}
    (opened : state.blocks = block :: outer)
    (alive : ¬ (block.reach = .unreachable ∧ code ≠ .finish ∧ code ≠ .otherwise))
    (lowers : ∀ events, Ensures (lower code (taken.getD { op := code })) subject
      { state with
        op := code
        sources := state.sources.insert ⟨state.output.code.size, state.instr, code⟩
        events } fun _ lowered => lowered.output.code.error = none → ∀ events,
          post { lowered with instr := lowered.instr + 1, events }) :
    Ensures (step taken code) subject state fun _ after => post after := by
  unfold step
  rw [ensures_bind, ensures_modify, ensures_bind]
  refine (@innermost_finds _ { state with op := code } _ _ opened).mono ?_
  rintro _ middle ⟨rfl, rfl⟩
  refine ensures_ite.mpr ⟨fun dead => absurd dead alive, fun _ => ?_⟩
  unfold record demandSound snapshot
  simp only [ensures_bind, ensures_modify, ensures_read, ensures_get]
  refine (lowers _).mono ?_
  intro _ lowered done
  cases error : lowered.output.code.error with
  | some cause => exact ensures_throw
  | none =>
    simp only [ensures_pure]
    exact done error _

/-- A compilation that has noted the instruction it is about to lower. -/
def noted (state : Compilation) (code : Opcode) : Compilation :=
  { state with
    op := code
    sources := state.sources.insert ⟨state.output.code.size, state.instr, code⟩ }

theorem step_here {taken : Option Instr} {code : Opcode} (opened : state.blocks = block :: outer)
    (alive : ¬ (block.reach = .unreachable ∧ code ≠ .finish ∧ code ≠ .otherwise))
    (books : Books subject state) :
    Ensures (step taken code) subject state fun _ after => ∃ lowered events,
      Here (Course.lower code (taken.getD { op := code }) state.courses) (noted state code) subject
        lowered ∧
      (code.faults ≠ [] → state.output.code.size < lowered.output.code.size) ∧
      after = { lowered with instr := lowered.instr + 1, events } := by
  apply step_alive opened alive
  intro started
  have start : Here state.courses (noted state code) subject
      { noted state code with events := started } :=
    (Here.start subject (noted state code)).follow (.still rfl rfl rfl rfl (Nat.le_refl _)) rfl
  have ready : Books subject { noted state code with events := started } :=
    ⟨books.sound, books.tall, books.blocks⟩
  have here := @lower_here state.courses (noted state code) subject
    { noted state code with events := started } (taken.getD { op := code }) _ _ opened ready start
  intro value lowered ran fine events
  refine ⟨lowered, events, here value lowered ran, ?_, rfl⟩
  intro faults
  exact lower_advances faults _ state.output.code.size subject
    { noted state code with events := started } (Nat.le_refl _) value lowered ran fine

end Rounds

end Compile

namespace Compile

open Course

variable {subject : Subject} {state : Compilation}

/-- A round brings the end of the body closer. -/
theorem round_lighter {block : Block} {outer : List Block} (books : Books subject state)
    (opened : state.blocks = block :: outer) :
    Ensures (next block >>= fun (instr, op) => step instr op) subject state fun _ after =>
      weights after.courses < weights state.courses := by
  have start : state.courses = block.course :: outer.map Block.course := by
    rw [Compilation.courses, opened, List.map_cons]
  refine ((next_takes opened).and (keeps_next block subject state books)).andThen ?_
  rintro taken middle ⟨⟨rfl, same⟩, books, _⟩
  have blocks : middle.blocks = { block with pending := block.pending.tail } :: outer := by
    rw [same]
  have courses : middle.courses = block.course.rest :: outer.map Block.course := by
    rw [Compilation.courses, blocks, List.map_cons]
    rfl
  rw [start]
  by_cases dead : block.reach = .unreachable ∧ block.course.first.2 ≠ .finish ∧
      block.course.first.2 ≠ .otherwise
  · refine (step_dead blocks dead).mono ?_
    intro _ after skipped
    have unchanged : after.courses = middle.courses := by
      rw [skipped]
      rfl
    rw [unchanged, courses]
    obtain ⟨instr, rest, pending⟩ := pending_of_first dead.2
    have lighter := weight_rest pending
    have positive : 0 < instr.nodes := by
      obtain ⟨op, results, body, elseBody, hasElse, _⟩ := instr
      rw [Instr.nodes]
      omega
    simp only [weights_cons]
    omega
  · refine (step_here blocks dead books).mono ?_
    rintro _ after ⟨lowered, events, here, _, rfl⟩
    have lowers := here.courses
    rw [courses] at lowers
    exact lt_of_eq_of_lt (congrArg weights lowers) (weights_lower block.course _)

/-- A round takes an instruction or marker and lowers it. -/
theorem steps_one {block : Block} {outer : List Block} (opened : state.blocks = block :: outer) :
    steps 1 subject state = (next block >>= fun (instr, op) => step instr op) subject state := by
  have stop : steps 0 = pure () := rfl
  rw [steps, bind_run, get_run]
  dsimp only
  rw [opened]
  simp [stop]

theorem steps_keep {start : Compilation} {invariant : Compilation → Prop}
    (books : Books subject start) (starts : invariant start)
    (round : ∀ count before after block outer,
      steps count subject start = .ok () before → steps (count + 1) subject start = .ok () after →
      before.blocks = block :: outer → Books subject before → invariant before →
      (next block >>= fun (instr, op) => step instr op) subject before = .ok () after →
      invariant after)
    (count : Nat) : Ensures (steps count) subject start fun _ after => invariant after := by
  induction count with
  | zero =>
    rw [steps, ensures_pure]
    exact starts
  | succ count ih =>
    intro value after ran
    have last := ran
    rw [steps_add, bind_run] at ran
    cases reached : steps count subject start with
    | error fault middle =>
      rw [reached] at ran
      cases ran
    | ok done middle =>
      rw [reached] at ran
      dsimp only at ran
      have kept := (keeps_steps count subject start books _ middle reached).1
      cases opened : middle.blocks with
      | nil =>
        rw [steps_of_closed 1 opened] at ran
        obtain rfl : middle = after := by
          cases ran
          rfl
        exact ih done middle reached
      | cons block outer =>
        rw [steps_one opened] at ran
        exact round count middle after block outer reached last opened kept
          (ih _ middle reached) ran

/-- Rounds enough lead to the end of the body. -/
theorem steps_close {fuel : Nat} (books : Books subject state)
    (enough : weights state.courses ≤ fuel) :
    Ensures (steps fuel) subject state fun _ after => after.blocks = [] := by
  induction fuel generalizing state with
  | zero =>
    rw [steps, ensures_pure]
    cases opened : state.blocks with
    | nil => rfl
    | cons block outer =>
      have positive := block.course.weight_pos
      rw [Compilation.courses, opened, List.map_cons, weights_cons] at enough
      omega
  | succ fuel ih =>
    rw [steps, ensures_bind, ensures_get]
    split
    · rename_i closed
      rw [ensures_pure]
      exact closed
    · rename_i block outer opened
      have keeps : Keeps Books (next block >>= fun (instr, op) => step instr op) anything :=
        (keeps_next block).andThen fun taken => keeps_step taken.1 taken.2
      have round := (round_lighter books opened).and (keeps subject state books)
      rw [ensures_bind] at round ⊢
      refine round.mono fun taken middle round => ?_
      refine round.andThen ?_
      rintro _ after ⟨lighter, books, _⟩
      exact ih books (by omega)

end Compile

end WasmX64
