import WasmX64.Proofs.Execution.Numeric
import WasmX64.Proofs.Execution.Variables
import WasmX64.Semantics.Step

/-!
# Single instructions are simulated

A processor mirrors a state of the semantics when the slots of the layout have the values of locals
and operands and the cells of the globals theirs.  The code of an integer, variable or parametric
instruction either leads from such a processor to one that mirrors the state after the
instruction, or it leaves for the stub of the trap that the instruction raises.
-/

namespace WasmX64

theorem toBitVec_operandOf {width : Nat} (word : BitVec width) :
    (operandOf word).toBitVec = word.setWidth 64 := by
  apply BitVec.eq_of_toNat_eq
  simp [operandOf]

theorem toBitVec_flagOf (holds : Bool) :
    (flagOf holds).toBitVec = if holds then 1 else 0 := by
  cases holds <;> rfl

theorem word_w64 (value : UInt64) :
    ValueType.i64.word value.toBitVec = IntWidth.w64.word value := by
  rw [ValueType.word_i64]
  exact (BitVec.ofNat_toNat 64 value.toBitVec).symm

theorem IntWidth.clip_toBitVec (width : IntWidth) (value : UInt64) :
    width.type.clip value.toBitVec = (operandOf (width.word value)).toBitVec := by
  rw [toBitVec_operandOf, ValueType.clip_eq]
  cases width with
  | w32 => rfl
  | w64 => exact congrArg (fun word : BitVec 64 => word.setWidth 64) (word_w64 value)

theorem IntWidth.word_eq_zero (width : IntWidth) (value : UInt64) :
    width.type.word value.toBitVec = 0 ↔ width.word value = 0 := by
  cases width with
  | w32 => exact Iff.rfl
  | w64 => exact Eq.congr_left (word_w64 value)

theorem IntUnary.eval_word (width : IntWidth) (op : IntUnary) (value : UInt64) :
    (op.eval (width.type.word value.toBitVec)).setWidth 64 =
      (operandOf (op.eval (width.word value))).toBitVec := by
  rw [toBitVec_operandOf]
  cases width with
  | w32 => rfl
  | w64 => exact congrArg (fun word : BitVec 64 => (op.eval word).setWidth 64) (word_w64 value)

theorem IntRelation.holds_word (width : IntWidth) (relation : IntRelation) (left right : UInt64) :
    relation.holds (width.type.word left.toBitVec) (width.type.word right.toBitVec) =
      relation.holds (width.word left) (width.word right) := by
  cases width with
  | w32 => rfl
  | w64 =>
    exact congrArg₂ (fun left right : BitVec 64 => relation.holds left right) (word_w64 left)
      (word_w64 right)

theorem IntBinary.eval_word (width : IntWidth) (op : IntBinary) (left right : UInt64) :
    (op.eval (width.type.word left.toBitVec) (width.type.word right.toBitVec)).map
        (BitVec.setWidth 64) =
      ((op.eval (width.word left) (width.word right)).map operandOf).map UInt64.toBitVec := by
  have words : (op.eval (width.type.word left.toBitVec) (width.type.word right.toBitVec)).map
        (BitVec.setWidth 64) =
      (op.eval (width.word left) (width.word right)).map (BitVec.setWidth 64) := by
    cases width with
    | w32 => rfl
    | w64 =>
      exact congrArg₂ (fun left right : BitVec 64 =>
        (op.eval left right).map (BitVec.setWidth 64)) (word_w64 left) (word_w64 right)
  rw [words]
  cases op.eval (width.word left) (width.word right) with
  | ok result => exact congrArg Except.ok (toBitVec_operandOf result).symm
  | error kind => rfl

theorem toBitVec_wrap (value : UInt64) :
    ((value.toBitVec.setWidth 64).setWidth 32).setWidth 64 =
      (UInt64.ofNat (value.toNat % 4294967296)).toBitVec := by
  have small := value.toNat_lt
  apply BitVec.eq_of_toNat_eq
  simp

/-- An integer in two's complement. -/
theorem toBitVec_wrapWide (number : Int) :
    (UInt64.ofNat (IntWidth.w64.wrap number)).toBitVec = BitVec.ofInt 64 number := by
  have positive : 0 ≤ number % (2 ^ 64 : Int) := Int.emod_nonneg _ (by decide)
  have small : number % (2 ^ 64 : Int) < 2 ^ 64 := Int.emod_lt_of_pos _ (by decide)
  apply BitVec.eq_of_toNat_eq
  rw [BitVec.toNat_ofInt]
  change (number % (2 ^ 64 : Int)).toNat % 2 ^ 64 = (number % (2 ^ 64 : Int)).toNat
  omega

theorem toBitVec_extendSigned (value : UInt64) :
    ((value.toBitVec.setWidth 32).signExtend 64).setWidth 64 =
      (UInt64.ofNat (IntWidth.w64.wrap (IntWidth.w32.read true value.toNat))).toBitVec := by
  rw [toBitVec_wrapWide, BitVec.setWidth_eq]
  rfl

theorem toBitVec_extendUnsigned (value : UInt64) :
    ((value.toBitVec.setWidth 32).setWidth 64).setWidth 64 =
      (UInt64.ofNat (IntWidth.w64.wrap (IntWidth.w32.read false value.toNat))).toBitVec := by
  rw [toBitVec_wrapWide, BitVec.setWidth_eq]
  change _ = BitVec.ofInt 64 ((value.toBitVec.setWidth 32).toNat : Int)
  rw [BitVec.ofInt_natCast]
  exact (BitVec.ofNat_toNat 64 _).symm

namespace State

/-- The values of locals and operands, bottom first. -/
def contents (state : State) : List (BitVec 64) :=
  (state.locals.toList ++ state.stack.reverse).map UInt64.toBitVec

theorem contents_cons (state : State) (value : UInt64) (rest : List UInt64) :
    (state.withStack (value :: rest)).contents =
      (state.withStack rest).contents ++ [value.toBitVec] := by
  simp [contents, withStack]

theorem contents_append (state : State) (popped rest : List UInt64) :
    (state.withStack (popped ++ rest)).contents =
      (state.withStack rest).contents ++ (popped.reverse).map UInt64.toBitVec := by
  simp [contents, withStack]

end State

structure Mirrors (subject : Subject) (addresses : RefKind → UInt32 → BitVec 64) (layout : Layout)
    (machine : Processor) (state : State) : Prop where
  locals : state.locals.size = subject.locals
  values : layout.values machine = state.contents
  zeroed : layout.Zeroed machine
  globals : ∀ (index : UInt32) global, subject.module.globals[index.toNat]? = some global →
    ∃ value, state.globals[index.toNat]? = some value ∧
      machine.load global.type (addresses .global index) = value.toBitVec

namespace Mirrors

variable {subject : Subject} {addresses : RefKind → UInt32 → BitVec 64} {layout : Layout}
  {machine : Processor} {state : State}

theorem height (mirrors : Mirrors subject addresses layout machine state) :
    layout.height = subject.locals + state.stack.length := by
  rw [← Layout.length_values layout machine, mirrors.values, ← mirrors.locals]
  simp [State.contents]

/-- What is left when operands are taken off. -/
theorem below (mirrors : Mirrors subject addresses layout machine state) {popped rest : List UInt64}
    (stack : state.stack = popped ++ rest) :
    (layout.values machine).take (layout.height - popped.length) =
      (state.withStack rest).contents := by
  have whole : state.contents = (state.withStack (popped ++ rest)).contents := by
    rw [State.withStack, ← stack]
  have length : layout.height - popped.length = (state.withStack rest).contents.length := by
    rw [mirrors.height, stack, ← mirrors.locals]
    simp [State.contents, State.withStack]
    omega
  rw [mirrors.values, whole, State.contents_append, length]
  simp

theorem operand (mirrors : Mirrors subject addresses layout machine state) {depth : Nat}
    {value : UInt64} (found : state.stack[depth]? = some value) :
    layout.operand machine depth = value.toBitVec := by
  have shallow : depth < state.stack.length := (List.getElem?_eq_some_iff.mp found).1
  have height := mirrors.height
  have here := @Layout.operand_eq layout machine depth (by omega)
  rw [mirrors.values, State.contents, List.getElem?_map, List.getElem?_append_right (by
    rw [Array.length_toList, mirrors.locals]; omega), List.getElem?_reverse (by
    rw [Array.length_toList, mirrors.locals]; omega), Array.length_toList, mirrors.locals] at here
  have place : state.stack.length - 1 - (layout.height - 1 - depth - subject.locals) = depth := by
    omega
  rw [place, found] at here
  exact (Option.some.inj here).symm

end Mirrors

/-- The cells of the globals lie apart from one another and from the frame slots below `count`. -/
structure Cells (subject : Subject) (addresses : RefKind → UInt32 → BitVec 64) (count : Nat)
    (machine : Processor) : Prop where
  aside : ∀ (index : UInt32) global, subject.module.globals[index.toNat]? = some global →
    machine.Aside count (addresses .global index) global.type.size
  apart : ∀ (index other : UInt32) global holder, index ≠ other →
    subject.module.globals[index.toNat]? = some global →
    subject.module.globals[other.toNat]? = some holder →
    ∀ offset < global.type.size,
      ¬ within (addresses .global other) holder.type.size
        (addresses .global index + BitVec.ofNat 64 offset)

/-- The bytes in the cells of the globals. -/
def globalBytes (subject : Subject) (addresses : RefKind → UInt32 → BitVec 64)
    (address : BitVec 64) : Prop :=
  ∃ (index : UInt32) (global : Global), subject.module.globals[index.toNat]? = some global ∧
    within (addresses .global index) global.type.size address

namespace Compile

open Layout (Persists Reshapes Denotes)

variable {subject : Subject} {origin state after : Compilation} {parts : List Part}

/-- What the code of an instruction comes to agrees with the effect of the instruction.  The frame
is where it was, and memory apart from its slots and the globals is as it was. -/
def Agrees (subject : Subject) (before after : Compilation)
    (addresses : RefKind → UInt32 → BitVec 64) (machine : Processor) : Effect → Exit → Prop
  | .done state, .falls next => Mirrors subject addresses after.layout next state ∧
      next.regs .rbp = machine.regs .rbp ∧ next.regs .rsp = machine.regs .rsp ∧
      ∀ address, ¬ globalBytes subject addresses address →
        (∀ index < before.layout.height, 8 ≤ (address - machine.slotAt index).toNat) →
        next.memory address = machine.memory address
  | .trap kind, .leaves label next => Reports before after label kind ∧
      ∀ address, (∀ index < before.layout.height, 8 ≤ (address - machine.slotAt index).toNat) →
        next.memory address = machine.memory address
  | _, _ => False

/-- The compiler keeps its books, and wherever the code starts from a processor that mirrors a
state, it comes to what the semantics says. -/
structure Simulates (subject : Subject) (before : Compilation) (instr : Instr)
    (after : Compilation) (parts : List Part) : Prop where
  orderly : Orderly subject after
  follows : ∀ host addresses (machine : Processor) (state : State),
    Cells subject addresses before.layout.height machine →
    Mirrors subject addresses before.layout machine state →
    ∃ exit, machine.followParts addresses parts = some exit ∧
      Agrees subject before after addresses machine (state.step host instr) exit

/-- The records of a compilation do not matter. -/
theorem Agrees.renote {before after : Compilation} {addresses : RefKind → UInt32 → BitVec 64}
    {machine : Processor} {effect : Effect} {exit : Exit} {blocks : List Block}
    {firstSources lastSources : SourceMap} {firstEvents lastEvents : Array Event}
    {op : Opcode} {instr : Int}
    (agrees : Agrees subject
      { before with blocks, sources := firstSources, op, events := firstEvents } after addresses
      machine effect exit) :
    Agrees subject before { after with sources := lastSources, instr, events := lastEvents }
      addresses machine effect exit := by
  cases effect <;> cases exit <;> try exact agrees
  exact ⟨⟨agrees.1.added⟩, agrees.2⟩

/-- The outcome of code is the effect of an instruction that leaves the globals alone. -/
def Effects (state : State) : Except TrapKind (List (BitVec 64)) → Effect → Prop
  | .ok values, .done next => values = next.contents ∧ next.locals.size = state.locals.size ∧
      next.globals = state.globals
  | .error kind, .trap found => kind = found
  | _, _ => False

theorem Realizes.simulates {instr : Instr}
    {outcome : Processor → Except TrapKind (List (BitVec 64))}
    (realizes : Realizes subject origin outcome after parts)
    (effects : ∀ host addresses (machine : Processor) (state : State),
      Mirrors subject addresses origin.layout machine state →
      Effects state (outcome machine) (state.step host instr)) :
    Simulates subject origin instr after parts := by
  refine ⟨realizes.orderly, fun host addresses machine state placed mirrors => ?_⟩
  have concludes := realizes.concludes addresses machine mirrors.zeroed
  have effect := effects host addresses machine state mirrors
  cases ends : outcome machine with
  | ok values =>
    rw [ends] at concludes effect
    obtain ⟨next, falls, reshapes⟩ := concludes
    cases steps : state.step host instr with
    | done final =>
      rw [steps] at effect
      obtain ⟨same, locals, globals⟩ := effect
      refine ⟨_, falls, ⟨?_, reshapes.values.trans same, reshapes.zeroed, ?_⟩, reshapes.pointer,
        reshapes.stack, fun address _ apart => reshapes.outside address id apart⟩
      · exact locals.trans mirrors.locals
      · intro index global found
        obtain ⟨value, holds, loaded⟩ := mirrors.globals index global found
        refine ⟨value, globals ▸ holds, ?_⟩
        rw [← loaded]
        exact ByteMemory.read_congr fun offset inside =>
          reshapes.outside _ id (placed.aside index global found offset inside)
    | trap kind =>
      rw [steps] at effect
      exact effect.elim
    | stuck =>
      rw [steps] at effect
      exact effect.elim
  | error kind =>
    rw [ends] at concludes effect
    obtain ⟨label, next, leaves, reports, outside⟩ := concludes
    cases steps : state.step host instr with
    | trap found =>
      rw [steps] at effect
      obtain rfl : kind = found := effect
      exact ⟨_, leaves, reports, outside⟩
    | done final =>
      rw [steps] at effect
      exact effect.elim
    | stuck =>
      rw [steps] at effect
      exact effect.elim

/-- A result has taken the place of operands. -/
theorem effects_replaced {addresses : RefKind → UInt32 → BitVec 64} {layout : Layout}
    {machine : Processor} {now : State} (mirrors : Mirrors subject addresses layout machine now)
    {popped rest : List UInt64} (stack : now.stack = popped ++ rest) {value : BitVec 64}
    {result : UInt64} (same : value = result.toBitVec) :
    Effects now (replaced layout (layout.height - popped.length) machine value)
      (now.leaving (result :: rest)) := by
  refine ⟨?_, rfl, rfl⟩
  rw [mirrors.below stack, same, State.contents_cons]

theorem Ready.stack {types : List ValueType} (ready : Ready subject state types)
    {addresses : RefKind → UInt32 → BitVec 64} {machine : Processor} {now : State}
    (mirrors : Mirrors subject addresses state.layout machine now) :
    types.length ≤ now.stack.length := by
  have enough := ready.enough
  have height := mirrors.height
  omega

theorem Ready.one {type : ValueType} (ready : Ready subject state [type])
    {addresses : RefKind → UInt32 → BitVec 64} {machine : Processor} {now : State}
    (mirrors : Mirrors subject addresses state.layout machine now) :
    ∃ value rest, now.stack = value :: rest ∧
      state.layout.operand machine 0 = value.toBitVec := by
  have long := ready.stack mirrors
  cases stack : now.stack with
  | nil =>
    rw [stack] at long
    cases long
  | cons value rest => exact ⟨value, rest, rfl, mirrors.operand (by rw [stack]; rfl)⟩

theorem Ready.two {first second : ValueType} (ready : Ready subject state [first, second])
    {addresses : RefKind → UInt32 → BitVec 64} {machine : Processor} {now : State}
    (mirrors : Mirrors subject addresses state.layout machine now) :
    ∃ right left rest, now.stack = right :: left :: rest ∧
      state.layout.operand machine 0 = right.toBitVec ∧
        state.layout.operand machine 1 = left.toBitVec := by
  have long := ready.stack mirrors
  match stack : now.stack with
  | [] =>
    rw [stack] at long
    cases long
  | [_] =>
    rw [stack] at long
    simp at long
  | right :: left :: rest =>
    exact ⟨right, left, rest, rfl, mirrors.operand (by rw [stack]; rfl),
      mirrors.operand (by rw [stack]; rfl)⟩

section Operations

variable {instr : Instr}

theorem intUnary_simulates {width : IntWidth} {op : IntUnary} (code : instr.op = .intUnary width op)
    (ready : Ready subject state [width.type]) :
    Compiles (lowerUnary width.type width.type (op.steps width.type)) subject state
      fun _ after parts => Simulates subject state instr after parts := by
  refine (@lowerUnary_compiles _ _ width.type width.type _ op.eval ready width.isValid_type
    fun machine loose dst src => Processor.unary_yields width.isInteger_type op).mono ?_
  intro _ after parts realizes
  refine realizes.simulates fun host addresses machine now mirrors => ?_
  obtain ⟨value, rest, stack, holds⟩ := ready.one mirrors
  rw [State.step, code, stack, holds, op.eval_word]
  exact effects_replaced mirrors (show now.stack = [value] ++ rest from stack) rfl

theorem isZero_simulates {width : IntWidth} (code : instr.op = .eqz width)
    (ready : Ready subject state [width.type]) :
    Compiles (lowerUnary width.type .i32 (isZero width.type)) subject state
      fun _ after parts => Simulates subject state instr after parts := by
  refine (lowerIsZero_compiles width ready).mono fun _ after parts realizes => ?_
  refine realizes.simulates fun host addresses machine now mirrors => ?_
  obtain ⟨value, rest, stack, holds⟩ := ready.one mirrors
  rw [State.step, code, stack, holds]
  refine effects_replaced mirrors (show now.stack = [value] ++ rest from stack) ?_
  simp only [toBitVec_flagOf, width.word_eq_zero, decide_eq_true_eq]

theorem intCompare_simulates {width : IntWidth} {relation : IntRelation}
    (code : instr.op = .intCompare width relation)
    (ready : Ready subject state [width.type, width.type]) :
    Compiles (lowerBinary width.type .i32 fun dst left right =>
        pure (Sequence.setCondition width.type relation.condition dst left right)) subject state
      fun _ after parts => Simulates subject state instr after parts := by
  refine (lowerIntCompare_compiles width relation ready).mono fun _ after parts realizes => ?_
  refine realizes.simulates fun host addresses machine now mirrors => ?_
  obtain ⟨right, left, rest, stack, rightHolds, leftHolds⟩ := ready.two mirrors
  rw [State.step, code, stack, rightHolds, leftHolds, relation.holds_word]
  exact effects_replaced mirrors (show now.stack = [right, left] ++ rest from stack)
    (toBitVec_flagOf _).symm

theorem intBinary_simulates {width : IntWidth} {op : IntBinary}
    (code : instr.op = .intBinary width op)
    (ready : Ready subject state [width.type, width.type]) :
    Compiles (lowerIntBinary width op) subject state
      fun _ after parts => Simulates subject state instr after parts := by
  refine (lowerIntBinary_compiles width op ready).mono fun _ after parts realizes => ?_
  refine realizes.simulates fun host addresses machine now mirrors => ?_
  obtain ⟨right, left, rest, stack, rightHolds, leftHolds⟩ := ready.two mirrors
  have evaluates := op.eval_word width left right
  rw [State.step, code, stack, rightHolds, leftHolds]
  dsimp only
  cases ends : op.eval (width.type.word left.toBitVec) (width.type.word right.toBitVec) with
  | ok result =>
    rw [ends] at evaluates
    cases means : (op.eval (width.word left) (width.word right)).map operandOf with
    | ok value =>
      rw [means] at evaluates
      have same : result.setWidth 64 = value.toBitVec := Except.ok.inj evaluates
      exact effects_replaced mirrors (show now.stack = [right, left] ++ rest from stack) same
    | error kind =>
      rw [means] at evaluates
      cases evaluates
  | error kind =>
    rw [ends] at evaluates
    cases means : (op.eval (width.word left) (width.word right)).map operandOf with
    | ok value =>
      rw [means] at evaluates
      cases evaluates
    | error found =>
      rw [means] at evaluates
      cases evaluates
      rfl

theorem wrap_simulates (code : instr.op = .convert .wrap)
    (ready : Ready subject state [.i64]) :
    Compiles (lowerConversion .wrap) subject state
      fun _ after parts => Simulates subject state instr after parts := by
  refine (@lowerConversion_compiles _ _ .wrap (fun word => word.setWidth 32) ready rfl
    (fun _ _ _ same => by cases same) fun machine loose dst src =>
      Processor.wrap_yields _).mono fun _ after parts realizes => ?_
  refine realizes.simulates fun host addresses machine now mirrors => ?_
  obtain ⟨value, rest, stack, holds⟩ := ready.one mirrors
  rw [State.step, code, stack, holds]
  refine effects_replaced mirrors (show now.stack = [value] ++ rest from stack) ?_
  exact toBitVec_wrap value

theorem extendSigned_simulates (code : instr.op = .convert (.extend true))
    (ready : Ready subject state [.i32]) :
    Compiles (lowerConversion (.extend true)) subject state
      fun _ after parts => Simulates subject state instr after parts := by
  refine (@lowerConversion_compiles _ _ (.extend true) (BitVec.signExtend 64) ready rfl
    (fun _ _ _ same => by cases same) ?_).mono fun _ after parts realizes => ?_
  · intro machine loose dst src
    have yields := @Processor.extendSigned_yields loose dst src machine .missing
    rw [← BitVec.setWidth_eq ((ValueType.i32.word (machine.regs src)).signExtend 64)] at yields
    exact yields
  · refine realizes.simulates fun host addresses machine now mirrors => ?_
    obtain ⟨value, rest, stack, holds⟩ := ready.one mirrors
    rw [State.step, code, stack, holds]
    exact effects_replaced mirrors (show now.stack = [value] ++ rest from stack)
      (toBitVec_extendSigned value)

theorem extendUnsigned_simulates (code : instr.op = .convert (.extend false))
    (ready : Ready subject state [.i32]) :
    Compiles (lowerConversion (.extend false)) subject state
      fun _ after parts => Simulates subject state instr after parts := by
  refine (@lowerConversion_compiles _ _ (.extend false) (BitVec.setWidth 64) ready rfl
    (fun _ _ _ same => by cases same) ?_).mono fun _ after parts realizes => ?_
  · intro machine loose dst src
    have yields := @Processor.extendUnsigned_yields loose dst src machine .missing
    rw [← BitVec.setWidth_eq ((ValueType.i32.word (machine.regs src)).setWidth 64)] at yields
    exact yields
  · refine realizes.simulates fun host addresses machine now mirrors => ?_
    obtain ⟨value, rest, stack, holds⟩ := ready.one mirrors
    rw [State.step, code, stack, holds]
    exact effects_replaced mirrors (show now.stack = [value] ++ rest from stack)
      (toBitVec_extendUnsigned value)

theorem Ready.clip_operand {type : ValueType} {types : List ValueType}
    (ready : Ready subject state (type :: types)) (machine : Processor) :
    type.clip (state.layout.operand machine 0) = state.layout.operand machine 0 := by
  obtain ⟨slot, here, rfl⟩ := ready.offers.slots 0 type rfl
  have isTop : state.layout.top? = some slot := by
    rw [Layout.top?, Array.back?_eq_getElem?]
    exact here
  rw [Layout.operand_top isTop]
  exact machine.clip_slotValue slot _

theorem select_simulates {type : ValueType} (valid : type.isValid = true)
    (code : instr.op = .select) (ready : Ready subject state [.i32, type, type]) :
    Compiles lowerSelect subject state
      fun _ after parts => Simulates subject state instr after parts := by
  refine (lowerSelect_compiles valid ready).mono fun _ after parts realizes => ?_
  refine realizes.simulates fun host addresses machine now mirrors => ?_
  have long := ready.stack mirrors
  obtain ⟨condition, second, first, rest, stack⟩ :
      ∃ condition second first rest, now.stack = condition :: second :: first :: rest := by
    match now.stack, long with
    | condition :: second :: first :: rest, _ => exact ⟨condition, second, first, rest, rfl⟩
  have conditionHolds := mirrors.operand (show now.stack[0]? = some condition by rw [stack]; rfl)
  have secondHolds := mirrors.operand (show now.stack[1]? = some second by rw [stack]; rfl)
  have firstHolds := mirrors.operand (show now.stack[2]? = some first by rw [stack]; rfl)
  have clipped := ready.clip_operand machine
  rw [conditionHolds] at clipped
  have zero : ValueType.i32.word condition.toBitVec = 0 ↔ condition = 0 := by
    constructor
    · intro none
      rw [ValueType.clip_eq, none] at clipped
      exact UInt64.toBitVec_inj.mp clipped.symm
    · rintro rfl
      rfl
  rw [State.step, code, stack, conditionHolds, secondHolds, firstHolds]
  refine effects_replaced mirrors (show now.stack = [condition, second, first] ++ rest from stack) ?_
  by_cases none : condition = 0
  · rw [if_pos (zero.mpr none), if_neg (not_not_intro none)]
  · rw [if_neg (mt zero.mp none), if_pos none]

theorem drop_simulates {type : ValueType} (code : instr.op = .drop)
    (ready : Ready subject state [type]) :
    Compiles dropOperand subject state
      fun _ after parts => Simulates subject state instr after parts := by
  refine (dropOperand_realizes ready.orderly ready.offers).mono fun _ after parts realizes => ?_
  refine realizes.simulates fun host addresses machine now mirrors => ?_
  obtain ⟨value, rest, stack, _⟩ := ready.one mirrors
  rw [State.step, code, stack]
  refine ⟨?_, rfl, rfl⟩
  rw [List.dropLast_eq_take, Layout.length_values]
  exact mirrors.below (show now.stack = [value] ++ rest from stack)

theorem intConst_simulates {width : IntWidth} (code : instr.op = .intConst width)
    (ready : Ready subject state []) :
    Compiles (lowerIntConst width instr.value) subject state
      fun _ after parts => Simulates subject state instr after parts := by
  refine (lowerIntConst_compiles width instr.value ready.orderly ready.room).mono
    fun _ after parts realizes => ?_
  refine realizes.simulates fun host addresses machine now mirrors => ?_
  rw [State.step, code]
  exact effects_replaced mirrors (show now.stack = [] ++ now.stack from rfl)
    (width.clip_toBitVec instr.value)

theorem local_mirrored {addresses : RefKind → UInt32 → BitVec 64} {layout : Layout}
    {machine : Processor} {now : State} (mirrors : Mirrors subject addresses layout machine now)
    {index : Nat} {slot : Slot} (inside : index < subject.locals)
    (found : layout.slots[index]? = some slot) :
    ∃ value, now.locals[index]? = some value ∧ machine.slotValue slot index = value.toBitVec := by
  have within : index < now.locals.size := by
    rw [mirrors.locals]
    exact inside
  have here : now.locals[index]? = some now.locals[index] := Array.getElem?_eq_getElem within
  refine ⟨_, here, ?_⟩
  have values := congrArg (fun values : List (BitVec 64) => values[index]?) mirrors.values
  simp only [Layout.getElem?_values, found, State.contents, List.getElem?_map] at values
  rw [List.getElem?_append_left (by simpa using within), Array.getElem?_toList, here] at values
  exact Option.some.inj values

theorem localGet_simulates {slot : Slot} (code : instr.op = .localGet)
    (ready : Ready subject state []) (inside : instr.index.toNat < subject.locals)
    (found : state.layout.slots[instr.index.toNat]? = some slot) :
    Compiles (lowerLocalGet instr.index) subject state
      fun _ after parts => Simulates subject state instr after parts := by
  refine (lowerLocalGet_compiles ready.orderly ready.room inside found).mono
    fun _ after parts realizes => ?_
  refine realizes.simulates fun host addresses machine now mirrors => ?_
  obtain ⟨value, here, holds⟩ := local_mirrored mirrors inside found
  have steps : now.step host instr = now.leaving (value :: now.stack) := by
    simp only [State.step, State.access, code, here]
  rw [steps]
  exact effects_replaced mirrors (show now.stack = [] ++ now.stack from rfl) holds

theorem localSet_simulates {slot : Slot} {keep : Bool}
    (code : instr.op = if keep then .localTee else .localSet)
    (ready : Ready subject state [slot.type]) (inside : instr.index.toNat < subject.locals)
    (found : state.layout.slots[instr.index.toNat]? = some slot) :
    Compiles (lowerLocalSet instr.index keep) subject state
      fun _ after parts => Simulates subject state instr after parts := by
  refine (lowerLocalSet_compiles keep ready.orderly ready.offers inside found).mono
    fun _ after parts realizes => ?_
  refine realizes.simulates fun host addresses machine now mirrors => ?_
  obtain ⟨value, rest, stack, holds⟩ := ready.one mirrors
  have locals := now.locals.size_setIfInBounds (i := instr.index.toNat) (a := value)
  have below : instr.index.toNat < now.locals.toList.length := by
    rw [Array.length_toList, mirrors.locals]
    exact inside
  have moved : (now.contents.set instr.index.toNat value.toBitVec) =
      ({ now with locals := now.locals.setIfInBounds instr.index.toNat value } : State).contents := by
    rw [State.contents, State.contents, ← List.map_set, List.set_append_left _ _ below,
      Array.toList_setIfInBounds]
  cases keep with
  | true =>
    have steps : now.step host instr = .done { now with
        locals := now.locals.setIfInBounds instr.index.toNat value, stack := value :: rest } := by
      simp only [State.step, State.access, code, stack, if_true]
    rw [steps]
    refine ⟨?_, locals, rfl⟩
    rw [assigned, mirrors.values, holds, if_pos rfl, moved, ← stack]
  | false =>
    have steps : now.step host instr = .done { now with
        locals := now.locals.setIfInBounds instr.index.toNat value, stack := rest } := by
      simp only [State.step, State.access, code, stack]
      rfl
    rw [steps]
    refine ⟨?_, locals, rfl⟩
    rw [assigned, mirrors.values, holds, if_neg Bool.false_ne_true, moved]
    simp [State.contents, stack]

theorem globalGet_simulates {global : Global} (code : instr.op = .globalGet)
    (ready : Ready subject state [])
    (found : subject.module.globals[instr.index.toNat]? = some global)
    (valid : global.type.isValid = true) :
    Compiles (lowerGlobalGet instr.index) subject state
      fun _ after parts => Simulates subject state instr after parts := by
  refine (lowerGlobalGet_compiles ready.orderly ready.room found valid).mono ?_
  rintro _ after parts ⟨orderly, follows⟩
  refine ⟨orderly, fun host addresses machine now cells mirrors => ?_⟩
  obtain ⟨value, here, loaded⟩ := mirrors.globals instr.index global found
  obtain ⟨next, falls, reshapes⟩ :=
    follows addresses machine mirrors.zeroed (cells.aside instr.index global found)
  have steps : now.step host instr = now.leaving (value :: now.stack) := by
    simp only [State.step, State.access, code, here]
  rw [steps]
  have pushed := mirrors.below (show now.stack = [] ++ now.stack from rfl)
  refine ⟨_, falls, ⟨mirrors.locals, ?_, reshapes.zeroed, ?_⟩, reshapes.pointer, reshapes.stack,
    fun address _ apart => reshapes.outside address id apart⟩
  · rw [reshapes.values, loaded, State.contents_cons, ← pushed]
    rfl
  · intro index other listed
    obtain ⟨word, holds, same⟩ := mirrors.globals index other listed
    refine ⟨word, holds, ?_⟩
    rw [← same]
    exact ByteMemory.read_congr fun offset inside =>
      reshapes.outside _ id (cells.aside index other listed offset inside)

theorem globalSet_simulates {global : Global} (code : instr.op = .globalSet)
    (ready : Ready subject state [global.type])
    (found : subject.module.globals[instr.index.toNat]? = some global)
    (mutable : global.isMutable = true) (valid : global.type.isValid = true) :
    Compiles (lowerGlobalSet instr.index) subject state
      fun _ after parts => Simulates subject state instr after parts := by
  refine (lowerGlobalSet_compiles ready.orderly ready.offers found mutable valid).mono ?_
  rintro _ after parts ⟨orderly, follows⟩
  refine ⟨orderly, fun host addresses machine now cells mirrors => ?_⟩
  obtain ⟨value, rest, stack, operand⟩ := ready.one mirrors
  obtain ⟨next, falls, reshapes, stored⟩ :=
    follows addresses machine mirrors.zeroed (cells.aside instr.index global found)
  have steps : now.step host instr = .done { now with
      globals := now.globals.setIfInBounds instr.index.toNat value, stack := rest } := by
    simp only [State.step, State.access, code, stack]
  rw [steps]
  refine ⟨_, falls, ⟨mirrors.locals, ?_, reshapes.zeroed, ?_⟩, reshapes.pointer, reshapes.stack,
    fun address apart aside => reshapes.outside address
      (fun inside => apart ⟨instr.index, global, found, inside⟩) aside⟩
  · rw [reshapes.values, List.dropLast_eq_take, Layout.length_values]
    exact mirrors.below (show now.stack = [value] ++ rest from stack)
  · intro index other listed
    obtain ⟨word, holds, same⟩ := mirrors.globals index other listed
    by_cases here : index = instr.index
    · subst here
      rw [found] at listed
      cases listed
      refine ⟨value, ?_, stored.trans operand⟩
      have inside := (Array.getElem?_eq_some_iff.mp holds).1
      simp [inside]
    · have apart : instr.index.toNat ≠ index.toNat :=
        fun equal => here (UInt32.toNat_inj.mp equal.symm)
      refine ⟨word, ?_, ?_⟩
      · rw [Array.getElem?_setIfInBounds_ne apart]
        exact holds
      · rw [← same]
        exact ByteMemory.read_congr fun offset inside =>
          reshapes.outside _ (cells.apart index instr.index other global here listed found offset
            inside) (cells.aside index other listed offset inside)

end Operations

end Compile

/-- Opcodes that work on integers, variables and operands and transfer no control. -/
def Opcode.isStraight : Opcode → Bool
  | .drop | .select | .localGet | .localSet | .localTee | .globalGet | .globalSet => true
  | .intConst _ | .eqz _ | .intCompare _ _ | .intUnary _ _ | .intBinary _ _ => true
  | .convert .wrap | .convert (.extend _) => true
  | _ => false

namespace Compile

variable {subject : Subject} {state : Compilation}

theorem local_slot {scope : Scope} {index : Nat} {type : ValueType}
    (describes : Describes subject state scope) (found : scope.locals[index]? = some type) :
    index < subject.locals ∧
      ∃ slot, state.layout.slots[index]? = some slot ∧ slot.type = type := by
  rw [describes.locals, List.getElem?_take] at found
  split at found
  · rename_i inside
    refine ⟨inside, ?_⟩
    rw [Compilation.types, Layout.getElem?_types] at found
    obtain ⟨slot, here, same⟩ := Option.map_eq_some_iff.mp found
    exact ⟨slot, here, same⟩
  · cases found

theorem lower_simulates {scope : Scope} {instr : Instr} {ins outs : List ValueType}
    (straight : instr.op.isStraight = true) (takes : instr.Takes scope ins outs)
    (numeric : Numeric (ins ++ outs)) (describes : Describes subject state scope)
    (ready : Ready subject state ins.reverse) :
    Compiles (lower instr.op instr) subject state
      fun _ after parts => Simulates subject state instr after parts := by
  unfold Instr.Takes at takes
  cases code : instr.op <;> rw [code] at straight takes <;> try cases straight
  case drop =>
    obtain ⟨type, rfl, rfl⟩ := takes
    exact drop_simulates code ready
  case select =>
    obtain ⟨type, rfl, rfl⟩ := takes
    exact select_simulates (numeric type (by simp)) code ready
  case localGet =>
    obtain ⟨type, found, rfl, rfl⟩ := takes
    obtain ⟨inside, slot, here, rfl⟩ := local_slot describes found
    exact localGet_simulates code ready inside here
  case localSet =>
    obtain ⟨type, found, rfl, rfl⟩ := takes
    obtain ⟨inside, slot, here, rfl⟩ := local_slot describes found
    exact @localSet_simulates _ _ _ slot false code ready inside here
  case localTee =>
    obtain ⟨type, found, rfl, rfl⟩ := takes
    obtain ⟨inside, slot, here, rfl⟩ := local_slot describes found
    exact @localSet_simulates _ _ _ slot true code ready inside here
  case globalGet =>
    obtain ⟨global, found, rfl, rfl⟩ := takes
    rw [describes.module] at found
    exact globalGet_simulates code ready found (numeric _ (by simp))
  case globalSet =>
    obtain ⟨global, found, mutable, rfl, rfl⟩ := takes
    rw [describes.module] at found
    exact globalSet_simulates code ready found mutable (numeric _ (by simp))
  case intConst width =>
    obtain ⟨rfl, rfl⟩ := takes
    exact intConst_simulates code ready
  case eqz width =>
    obtain ⟨rfl, rfl⟩ := takes
    exact isZero_simulates code ready
  case intCompare width relation =>
    obtain ⟨rfl, rfl⟩ := takes
    exact intCompare_simulates code ready
  case intUnary width op =>
    obtain ⟨rfl, rfl⟩ := takes
    exact intUnary_simulates code ready
  case intBinary width op =>
    obtain ⟨rfl, rfl⟩ := takes
    exact intBinary_simulates code ready
  case convert op =>
    cases op <;> try cases straight
    case wrap =>
      obtain ⟨rfl, rfl⟩ := takes
      exact wrap_simulates code ready
    case extend signed =>
      obtain ⟨rfl, rfl⟩ := takes
      cases signed with
      | true => exact extendSigned_simulates code ready
      | false => exact extendUnsigned_simulates code ready

/-- The driver compiles a well-typed instruction of a block that is reached to code that simulates
it, unless the code as a whole has an error. -/
theorem straightLine_simulated {scope : Scope} {instr : Instr} {ins outs : List ValueType}
    (straight : instr.op.isStraight = true) (takes : instr.Takes scope ins outs)
    (numeric : Numeric (ins ++ outs)) (describes : Describes subject state scope)
    (ready : Ready subject state ins.reverse)
    (live : ∀ block ∈ state.blocks.head?, block.reach ≠ .unreachable) :
    match step (some instr) instr.op subject state with
    | .ok _ after => after.layout.problem? = none ∧
        ∃ parts, state.Gains parts after ∧ Simulates subject state instr after parts
    | .error fault _ => ∃ cause, fault = .code cause := by
  obtain ⟨block, outer, blocks, above⟩ := ready.offers.opened
  have reached : block.reach ≠ .unreachable := live block (by rw [blocks]; rfl)
  unfold step
  simp only [bind_run, modify_run, innermost, get_run, blocks, pure_run, reached, false_and,
    if_false, record, read_run, snapshot, demandSound, Option.getD_some]
  generalize noted : state.events.push _ = events
  generalize located : state.sources.insert _ = sources
  let start : Compilation := { state with blocks := block :: outer, sources, op := instr.op, events }
  have orderly : Orderly subject start := ready.orderly.keep blocks.symm rfl
  have started : Ready subject start ins.reverse :=
    ⟨orderly, ⟨⟨block, outer, rfl, above⟩, ready.offers.slots⟩, ready.room⟩
  have described : Describes subject start scope := ⟨describes.module, describes.locals⟩
  obtain ⟨_, middle, ends, parts, gains, simulates⟩ :=
    lower_simulates straight takes numeric described started
  change lower instr.op instr subject
    { state with blocks := block :: outer, sources, op := instr.op, events } = _ at ends
  rw [ends]
  dsimp only
  cases error : middle.output.code.error with
  | some cause => exact ⟨cause, rfl⟩
  | none =>
    refine ⟨Layout.problem?_eq_none_iff.mpr simulates.orderly.books.sound, parts, gains,
      simulates.orderly.keep rfl rfl, ?_⟩
    intro host addresses machine now cells mirrors
    obtain ⟨exit, runs, agrees⟩ := simulates.follows host addresses machine now cells mirrors
    exact ⟨exit, runs, agrees.renote⟩

/-- A function with one local, in a module that declares nothing. -/
def withLocal : Subject :=
  { (default : Subject) with module := Module.declaring #[], locals := 1 }

/-- A local and an operand share a register, under a constant operand. -/
def sharing (value : Int32) : Compilation where
  layout := ((Layout.push {} (.inReg .i32 .rax)).push (.inReg .i32 .rax)).push (.ofConst .i32 value)
  blocks := [{ Block.opened [] .block [] with base := 1, join := { base := 1 } }]

theorem sharing_sound (value : Int32) : (sharing value).layout.Sound := by
  refine (((Layout.sound_empty 0).push ?_).push ?_).push (Layout.fits_ofConst .i32 value) <;>
    · rintro _ ⟨⟩
      decide

theorem sharing_ready (value : Int32) :
    Ready withLocal (sharing value) [.i32, .i32] := by
  have height : (sharing value).layout.height = 3 := rfl
  have limit : frameLimit = 2 ^ 28 := rfl
  refine ⟨⟨⟨sharing_sound value, height ▸ by decide, ?_⟩, ?_, by omega⟩,
    ⟨⟨_, [], rfl, Int.le_refl 3⟩, ?_⟩, by omega⟩
  · intro block member
    rw [List.mem_singleton.mp member]
    exact ⟨Int.le_refl 1, rfl, Layout.sound_empty 1, nofun, fun _ _ => rfl, nofun, nofun, nofun⟩
  · intro slot member
    simp only [sharing, Layout.slots_push, Array.mem_push] at member
    rcases member with ((none | rfl) | rfl) | rfl
    · exact absurd none (Array.not_mem_empty slot)
    all_goals rfl
  · intro depth type found
    match depth, found with
    | 0, found =>
      cases found
      exact ⟨.ofConst .i32 value, rfl, rfl⟩
    | 1, found =>
      cases found
      exact ⟨.inReg .i32 .rax, rfl, rfl⟩

/-- The signed division of words. -/
def dividing : Instr := { op := .intBinary .w32 .divS }

/-- The divisor is a constant, and a local shares its register with the dividend. -/
theorem straightLine_simulated_division :
    ∃ after parts, step (some dividing) dividing.op withLocal (sharing 2) = .ok () after ∧
      after.layout.problem? = none ∧ (sharing 2).Gains parts after ∧
      Simulates withLocal (sharing 2) dividing after parts := by
  have simulated := @straightLine_simulated withLocal (sharing 2)
    ⟨Module.declaring #[], [.i32], [], []⟩ dividing [.i32, .i32] [.i32] rfl ⟨rfl, rfl⟩
    (fun type member => by simp at member; rw [member]; rfl) ⟨rfl, rfl⟩ (sharing_ready 2)
    (by rintro _ ⟨⟩; decide)
  obtain ⟨_, after, runs⟩ :=
    exists_of_ends (show ends (step (some dividing) dividing.op) withLocal (sharing 2) = true by
      decide +kernel)
  rw [runs] at simulated
  obtain ⟨checked, parts, gains, simulates⟩ := simulated
  exact ⟨after, parts, runs, checked, gains, simulates⟩

end Compile

end WasmX64
