import WasmX64.Proofs.Compile.Control
import WasmX64.Proofs.Typing.Function

/-!
# The books between rounds

The driver of the compiler takes one instruction or marker after the other.  Between two
rounds the books are in order: the live layout and all saved ones pass their check.
-/

namespace WasmX64

namespace Compile

variable {subject : Subject} {state : Compilation}

/-- What precedes the body of a function.  The value tells where the size of the frame is
to be written. -/
def begin : Compile Nat := do
  let subject ← read
  record (.functionStart subject.function)
  let frame ← modifyGet fun state =>
    let (offset, code) := state.output.code.openFrame
    (offset, { state with output := { state.output with code } })
  placeParams subject.signature.params
  placeLocals none subject.function.locals
  let base : Int := subject.locals
  openBlock .block subject.type.results fun block =>
    { block with base, join := { block.join with base }, pending := subject.function.body }
  modifyLayout ({ · with base })
  modify ({ · with instr := 0 })
  return frame

/-- What follows the body of a function. -/
def conclude (frame : Nat) : Compile Compiled := do
  let subject ← read
  let traps ← emitStubs (← get).stubs.toList
  modify fun state =>
    { state with
      output := { state.output with
        code := state.output.code.setFrame frame state.output.frameSlots } }
  demandSound
  modify ({ · with instr := -1 })
  record (.functionEnd subject.function)
  let state ← get
  return {
    index := subject.index
    program := ⟨state.output.code.bytes, state.refs.toList, state.output.frameSlots⟩
    signature := subject.signature
    sources := state.sources
    traps }

/-- The number of rounds that the driver may take. -/
def rounds (subject : Subject) : Nat := 3 * Instr.nodesAll subject.function.body + 3

theorem steps_of_closed (fuel : Nat) (closed : state.blocks = []) :
    steps fuel subject state = .ok () state := by
  cases fuel with
  | zero => rfl
  | succ fuel =>
    rw [steps, bind_run, get_run]
    dsimp only
    rw [closed]
    rfl

/-- The driver goes on after any number of rounds. -/
theorem steps_add (first second : Nat) :
    steps (first + second) subject state =
      (steps first >>= fun _ => steps second) subject state := by
  induction first generalizing state with
  | zero => rw [Nat.zero_add, steps, bind_run, pure_run]
  | succ first ih =>
    rw [Nat.add_right_comm, steps, steps, bind_run, bind_run, bind_run, get_run]
    dsimp only
    cases opened : state.blocks with
    | nil => exact (steps_of_closed second opened).symm
    | cons block outer =>
      dsimp only
      rw [bind_run, bind_run]
      cases next block subject state with
      | error fault after => rfl
      | ok taken after =>
        dsimp only
        rw [bind_run, bind_run]
        cases step taken.1 taken.2 subject after with
        | error fault final => rfl
        | ok _ final =>
          dsimp only
          rw [ih, bind_run]

/-- A compilation is made of what precedes the body, the rounds of the driver, which may be
looked at after any number of them, and what follows the body. -/
theorem function_rounds {count : Nat} (few : count ≤ rounds subject) :
    function subject state = (begin >>= fun frame => steps count >>= fun _ =>
      steps (rounds subject - count) >>= fun _ => conclude frame) subject state := by
  have split : function subject state = (begin >>= fun frame =>
      steps (rounds subject) >>= fun _ => conclude frame) subject state := by
    simp only [function, begin, conclude, rounds, bind_assoc, pure_bind]
    simp only [bind_run, read_run]
  rw [split, bind_run, bind_run]
  cases begin subject state with
  | error fault after => rfl
  | ok frame after =>
    dsimp only
    rw [← bind_assoc, bind_run, bind_run, ← steps_add, Nat.add_sub_of_le few]

theorem keeps_lower (op : Opcode) (instr : Instr) : Keeps Books (lower op instr) anything := by
  cases plain : op.isPlain with
  | true => exact @Discipline.lower_plain _ [] disciplined op plain instr
  | false =>
    cases op
    case unreachable => exact keeps_lowerUnreachable
    case block => exact keeps_lowerBlock instr
    case loop => exact keeps_lowerLoop instr
    case branchIf => exact keeps_lowerIf instr
    case otherwise => exact keeps_lowerElse
    case finish => exact keeps_lowerEnd
    case br => exact keeps_lowerBr _
    case brIf => exact keeps_lowerBrIf _
    case brTable => exact keeps_lowerBrTable instr
    case ret => exact (Books.idle .returnFromFunction).andThen fun _ => keeps_finishBlock
    all_goals cases plain

theorem Idle.demandSound : Idle demandSound := by
  refine get.andThen fun state => ?_
  split
  · exact throw
  · exact pure

theorem keeps_step (instr : Option Instr) (op : Opcode) :
    Keeps Books (step instr op) anything := by
  refine Keeps.andThen (.modify ?_) fun _ => keeps_innermost.andThen fun block => .ite ?_ ?_
  · intro subject state books
    exact ⟨books.sound, books.tall, books.blocks⟩
  · apply Keeps.modify
    intro subject state books
    exact ⟨books.sound, books.tall, books.blocks⟩
  · refine Keeps.andThen (.modify ?_) fun _ => (Books.idle (.record _)).andThen fun _ => ?_
    · intro subject state books
      exact ⟨books.sound, books.tall, books.blocks⟩
    refine (keeps_lower op _).andThen fun _ => (Books.idle .demandSound).andThen fun _ => ?_
    refine Keeps.andThen (Keeps.get.andThen fun _ => .pure trivial) fun _ => ?_
    refine (Books.idle (.record _)).andThen fun _ => .modify ?_
    intro subject state books
    exact ⟨books.sound, books.tall, books.blocks⟩

theorem keeps_next (block : Block) : Keeps Books (next block) anything := by
  unfold next
  split
  · refine Keeps.andThen (keeps_modifyBlock ?_) fun _ => .pure trivial
    intro locals block kept
    exact ⟨kept.floor, kept.startsAt, kept.sound, kept.tall, kept.fresh, kept.loops, kept.saved,
      kept.armed⟩
  · exact .pure trivial

theorem keeps_steps (count : Nat) : Keeps Books (steps count) anything := by
  induction count with
  | zero => exact .done
  | succ count ih =>
    rw [steps]
    refine Keeps.get.andThen fun state => ?_
    split
    · exact .done
    · rename_i block outer opened
      refine (keeps_next block).andThen fun taken => ?_
      exact (keeps_step taken.1 taken.2).andThen fun _ => ih

def Sounds (_ : Subject) (state : Compilation) : Prop := state.layout.Sound

theorem Stays.sounds {α : Type} {action : Compile α} {post : α → Prop}
    (stays : Stays action post) : Keeps Sounds action post := by
  intro subject state sound
  have held : Held state.blocks state.layout.height (fun _ => False) subject state :=
    ⟨sound, rfl, rfl, (by simp)⟩
  refine (stays _ _ _ subject state held).mono ?_
  intro value after kept
  exact ⟨kept.1.sound, kept.2⟩

theorem sounds_push {slot : Slot} (fits : slot.Fits) :
    Keeps Sounds (modifyLayout (·.push slot)) anything := by
  intro subject state sound
  exact ensures_modifyLayout.mpr ⟨sound.push fits, trivial⟩

theorem sounds_placeParams {params : List Passing}
    (suits : ∀ type reg, Passing.reg type reg ∈ params → Suits type.regClass reg) :
    Keeps Sounds (placeParams params) anything := by
  induction params with
  | nil => exact .done
  | cons param rest ih =>
    have others := ih fun type reg member => suits type reg (List.mem_cons_of_mem _ member)
    cases param with
    | reg type reg =>
      rw [placeParams]
      have fits := fits_inReg (suits type reg List.mem_cons_self)
      exact (sounds_push fits).andThen fun _ => others
    | stack type offset =>
      rw [placeParams]
      refine (stays_takeRegister type.regClass [] RegSet.empty).sounds.bind ?_
      intro reg suited
      refine (Idle.emit _).stays.sounds.andThen fun _ => ?_
      exact (sounds_push (fits_inReg suited)).andThen fun _ => others

theorem sounds_placeLocals (zero : Option Register) (types : List ValueType)
    (suits : ∀ reg, zero = some reg → Suits .fp reg) :
    Keeps Sounds (placeLocals zero types) anything := by
  induction types generalizing zero with
  | nil => exact .done
  | cons type rest ih =>
    rw [placeLocals]
    apply Keeps.demand
    split
    · rename_i float
      have bank : type.regClass = .fp := by simp [ValueType.regClass, float]
      have place : ∀ reg, Suits .fp reg → Keeps Sounds (do
          pushRegister type reg
          placeLocals (some reg) rest) anything := by
        intro reg suited
        refine (sounds_push (fits_inReg (bank ▸ suited))).andThen fun _ => ih (some reg) ?_
        intro other same
        cases same
        exact suited
      refine Keeps.get.andThen fun state => ?_
      dsimp only
      split
      · rename_i reg found
        rw [pure_bind]
        exact place reg (suits reg (Option.filter_eq_some_iff.mp found).1)
      · refine (stays_takeRegister .fp [] RegSet.empty).sounds.bind fun reg suited => ?_
        refine (Idle.emit _).stays.sounds.andThen fun _ => ?_
        rw [pure_bind]
        exact place reg suited
    · refine Keeps.andThen (sounds_push ?_) fun _ => ih zero suits
      exact Layout.fits_ofConst type 0

theorem assign_suits {gp fp : List Register}
    (gpSuits : ∀ reg ∈ gp, Suits .gp reg) (fpSuits : ∀ reg ∈ fp, Suits .fp reg) (taken : Nat)
    (types : List ValueType) {type : ValueType} {reg : Register}
    (member : Passing.reg type reg ∈ (Signature.assign gp fp taken types).1) :
    Suits type.regClass reg := by
  induction types generalizing gp fp taken with
  | nil => cases member
  | cons first rest ih =>
    cases float : first.isFloat with
    | true =>
      have bank : first.regClass = .fp := by simp [ValueType.regClass, float]
      cases fp with
      | nil =>
        simp only [Signature.assign, float, if_true, List.mem_cons, reduceCtorEq,
          false_or] at member
        exact ih gpSuits fpSuits _ member
      | cons head tail =>
        simp only [Signature.assign, float, if_true, List.mem_cons,
          Passing.reg.injEq] at member
        cases member with
        | inl same =>
          obtain ⟨rfl, rfl⟩ := same
          exact bank ▸ fpSuits reg List.mem_cons_self
        | inr later =>
          refine ih gpSuits ?_ _ later
          exact fun other among => fpSuits other (List.mem_cons_of_mem _ among)
    | false =>
      have bank : first.regClass = .gp := by simp [ValueType.regClass, float]
      cases gp with
      | nil =>
        simp only [Signature.assign, float, Bool.false_eq_true, if_false, List.mem_cons,
          reduceCtorEq, false_or] at member
        exact ih gpSuits fpSuits _ member
      | cons head tail =>
        simp only [Signature.assign, float, Bool.false_eq_true, if_false, List.mem_cons,
          Passing.reg.injEq] at member
        cases member with
        | inl same =>
          obtain ⟨rfl, rfl⟩ := same
          exact bank ▸ gpSuits reg List.mem_cons_self
        | inr later =>
          refine ih ?_ fpSuits _ later
          exact fun other among => gpSuits other (List.mem_cons_of_mem _ among)

/-- Parameters arrive in registers of their bank. -/
theorem passing_suits (type : FuncType) {param : ValueType} {reg : Register}
    (member : Passing.reg param reg ∈ (Signature.ofType type).params) :
    Suits param.regClass reg := by
  refine assign_suits ?_ ?_ 0 type.params member
  · unfold Suits
    decide
  · unfold Suits
    decide

/-- The body of a function starts with the books in order. -/
theorem begin_books (proper : subject.Proper) :
    Ensures begin subject {} fun _ after => Books subject after := by
  have empty : Sounds subject {} := Layout.sound_empty 0
  unfold begin
  rw [ensures_bind, ensures_read, ensures_bind]
  refine ((Quiet.record _ subject {}).and
    ((Idle.record _).stays.sounds subject {} empty)).mono ?_
  rintro _ started ⟨shape, sound, _⟩
  refine ((Quiet.modifyGet (fun _ => .of_slots rfl rfl) subject started).and
    (Keeps.modifyGet (fun _ _ sound => sound) subject started sound)).andThen ?_
  rintro frame entered ⟨shape', sound, _⟩
  have shifts : ({} : Compilation).Shifts [] [] entered :=
    .of_same (shape.trans shape') (by simp [Compilation.Reaches])
  have suits : ∀ type reg, Passing.reg type reg ∈ subject.signature.params →
      Suits type.regClass reg := by
    intro type reg member
    rw [proper.signature] at member
    exact passing_suits _ member
  refine ((placeParams_shifts _ shifts).and (sounds_placeParams suits subject _ sound)).andThen ?_
  rintro _ passed ⟨params, sound, _⟩
  refine ((placeLocals_shifts none _ params).and
    (sounds_placeLocals none _ (by simp) subject _ sound)).andThen ?_
  rintro _ placed ⟨locals, sound, _⟩
  have noBlocks : placed.blocks = [] := by simpa [Compilation.outline] using locals.blocks
  have height : placed.layout.height = subject.locals := by
    obtain ⟨rest, start, left, _⟩ := locals.types
    have nothing : rest = [] := by simpa [Compilation.types, Layout.types] using start.symm
    rw [← Layout.length_types, ← Compilation.types, left, nothing, proper.signature,
      Signature.ofType_types, proper.locals]
    simp [Subject.scope]
  refine (openBlock_opens _ _ _).andThen ?_
  rintro _ opened ⟨layout, label, elseLabel, blocks⟩
  rw [noBlocks] at blocks
  simp only [ensures_bind, ensures_modifyLayout, ensures_modify, ensures_pure]
  constructor
  · rw [layout]
    exact Layout.Sound.congr sound rfl rfl rfl
  · rw [layout]
    exact Nat.le_of_eq height.symm
  · dsimp only
    rw [blocks]
    intro block member
    rw [List.mem_singleton.mp member]
    have entered : Entered subject.locals .block { Block.opened [] .block subject.type.results with
        label, elseLabel, base := subject.locals,
        join := { base := subject.locals }, pending := subject.function.body } :=
      ⟨rfl, rfl, rfl, rfl⟩
    apply entered.kept (Nat.le_refl _)
    · simp
    · simp [Block.opened]
    · simp

end Compile

/-- The compiler after a number of rounds of its driver over a function, or the fault that
came before. -/
def compilingAfter (module : Option Module) (host : Host) (index : UInt32) (count : Nat) :
    Except Fault Compilation :=
  match Subject.of module host index with
  | .error fault => .error fault
  | .ok subject =>
    match (Compile.begin >>= fun _ => Compile.steps count) subject {} with
    | .ok _ state => .ok state
    | .error fault _ => .error fault

theorem Subject.of_proper {module : Option Module} {host : Host} {index : UInt32}
    {subject : Subject} (made : Subject.of module host index = .ok subject) :
    subject.Proper := by
  cases module with
  | none => cases made
  | some module => exact (Subject.of_ok made).1

/-- Rounds of a compilation are rounds behind what precedes the body. -/
theorem compilingAfter_ok {module : Option Module} {host : Host} {index : UInt32} {count : Nat}
    {state : Compilation} (reached : compilingAfter module host index count = .ok state) :
    ∃ subject frame start, Subject.of module host index = .ok subject ∧
      Compile.begin subject {} = .ok frame start ∧
      Compile.steps count subject start = .ok () state := by
  unfold compilingAfter at reached
  split at reached
  · cases reached
  · rename_i subject made
    split at reached
    · rename_i ran
      cases reached
      obtain ⟨frame, start, begun, goes⟩ := EStateM.bind_inv ran
      exact ⟨subject, frame, start, made, begun, goes⟩
    · cases reached

/-- Between any two rounds of the driver the live layout passes its check, and so do the
join of every open block and every layout saved for an else arm.  The compilation of the
function goes on from there. -/
theorem layouts_consistent {module : Option Module} {host : Host} {index : UInt32}
    {count : Nat} {state : Compilation}
    (reached : compilingAfter module host index count = .ok state) :
    state.layout.problem? = none ∧
      (∀ block ∈ state.blocks, block.join.problem? = none ∧
        ∀ layout, block.elseLayout = some layout → layout.problem? = none) ∧
      ∃ subject frame, Subject.of module host index = .ok subject ∧
        (count ≤ Compile.rounds subject → Compile.function subject {} =
          (Compile.steps (Compile.rounds subject - count) >>= fun _ =>
            Compile.conclude frame) subject state) := by
  obtain ⟨subject, frame, middle, made, begun, ran⟩ := compilingAfter_ok reached
  have starts := Compile.begin_books (Subject.of_proper made) frame middle begun
  have books := (Compile.keeps_steps count subject middle starts () state ran).1
  refine ⟨Layout.problem?_eq_none_iff.mpr books.sound, ?_, subject, frame, made, ?_⟩
  · intro block member
    have kept := books.blocks block member
    refine ⟨Layout.problem?_eq_none_iff.mpr kept.sound, ?_⟩
    intro layout saved
    exact Layout.problem?_eq_none_iff.mpr (kept.saved layout saved).1
  · intro few
    rw [Compile.function_rounds few, Compile.bind_run, begun]
    dsimp only
    rw [Compile.bind_run, ran]

/-- In the then arm of an `if` whose else arm is still to come. -/
theorem layouts_consistent_armed :
    ∃ state, compilingAfter (some joinsTyped) {} 0 3 = .ok state ∧
      state.blocks.any (·.elseLayout.isSome) = true ∧
      state.layout.problem? = none ∧
      ∀ block ∈ state.blocks, block.join.problem? = none ∧
        ∀ layout, block.elseLayout = some layout → layout.problem? = none := by
  have armed : (compilingAfter (some joinsTyped) {} 0 3).toOption.any
      (·.blocks.any (·.elseLayout.isSome)) = true := by decide +kernel
  obtain ⟨state, ran, armed⟩ := Except.any_inv armed
  have consistent := layouts_consistent ran
  exact ⟨state, ran, armed, consistent.1, consistent.2.1⟩

end WasmX64
