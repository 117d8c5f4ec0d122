import WasmX64.Wasm.Module

/-!
# Typing of function bodies

The validation rules of WebAssembly 1.0 for instruction trees.  Stacks are lists of
types with the top at the end.  `Checks` types a body against the types it has to
leave behind; its flag says whether the dead code behind a branch is typed as well,
as validation does, or left alone.  Alignments are hints and not typed.

`Slips` is what typing can meet although every instruction finds the operands it
works on: values that arrive at the end of a construct or at a branch target with
other types than the declared ones, and types or markers outside the language.
-/

namespace WasmX64

/-- What the typing of an instruction depends on.  `labels` has the types that a
branch to each enclosing construct carries, innermost first. -/
structure Scope where
  module : Module
  locals : List ValueType
  labels : List (List ValueType)
  results : List ValueType

/-- The scope of a body whose construct is branched to with the types of `label`. -/
def Scope.enter (scope : Scope) (label : List ValueType) : Scope :=
  { scope with labels := label :: scope.labels }

/-- The types a branch of a depth carries. -/
def Scope.label? (scope : Scope) (depth : UInt32) : Option (List ValueType) :=
  scope.labels[depth.toNat]?

/-- The scope of the body of a function. -/
def Module.scope (module : Module) (function : Function) (type : FuncType) : Scope where
  module
  locals := type.params ++ function.locals
  labels := [type.results]
  results := type.results

/-- The four numeric types only. -/
def Numeric (types : List ValueType) : Prop :=
  ∀ type ∈ types, type.isValid = true

/-- Opcodes that neither branch nor own a body. -/
def Opcode.isPlain : Opcode → Bool
  | .unreachable | .block | .loop | .branchIf | .otherwise | .finish | .br | .brIf | .brTable
  | .ret => false
  | _ => true

/-- Opcodes that mark the places between bodies.  In a tree the structure itself does,
and no instruction may. -/
def Opcode.isMarker : Opcode → Bool
  | .finish | .otherwise => true
  | _ => false

namespace Instr

/-- An instruction that neither branches nor owns a body takes `ins` off the stack and
leaves `outs`. -/
def Takes (scope : Scope) (instr : Instr) (ins outs : List ValueType) : Prop :=
  match instr.op with
  | .nop => ins = [] ∧ outs = []
  | .drop => ∃ type, ins = [type] ∧ outs = []
  | .select => ∃ type, ins = [type, type, .i32] ∧ outs = [type]
  | .localGet =>
    ∃ type, scope.locals[instr.index.toNat]? = some type ∧ ins = [] ∧ outs = [type]
  | .localSet =>
    ∃ type, scope.locals[instr.index.toNat]? = some type ∧ ins = [type] ∧ outs = []
  | .localTee =>
    ∃ type, scope.locals[instr.index.toNat]? = some type ∧ ins = [type] ∧ outs = [type]
  | .globalGet =>
    ∃ global, scope.module.globals[instr.index.toNat]? = some global ∧ ins = [] ∧
      outs = [global.type]
  | .globalSet =>
    ∃ global, scope.module.globals[instr.index.toNat]? = some global ∧
      global.isMutable = true ∧ ins = [global.type] ∧ outs = []
  | .load op => scope.module.memory.isSome = true ∧ ins = [.i32] ∧ outs = [op.result]
  | .store op => scope.module.memory.isSome = true ∧ ins = [.i32, op.operand] ∧ outs = []
  | .memorySize => scope.module.memory.isSome = true ∧ ins = [] ∧ outs = [.i32]
  | .memoryGrow => scope.module.memory.isSome = true ∧ ins = [.i32] ∧ outs = [.i32]
  | .intConst width => ins = [] ∧ outs = [width.type]
  | .floatConst width => ins = [] ∧ outs = [width.type]
  | .eqz width => ins = [width.type] ∧ outs = [.i32]
  | .intCompare width _ => ins = [width.type, width.type] ∧ outs = [.i32]
  | .floatCompare width _ => ins = [width.type, width.type] ∧ outs = [.i32]
  | .intUnary width _ => ins = [width.type] ∧ outs = [width.type]
  | .intBinary width _ => ins = [width.type, width.type] ∧ outs = [width.type]
  | .floatUnary width _ => ins = [width.type] ∧ outs = [width.type]
  | .floatBinary width _ => ins = [width.type, width.type] ∧ outs = [width.type]
  | .convert op => ins = [op.operand] ∧ outs = [op.result]
  | .call =>
    ∃ type, scope.module.functionType instr.index = .ok type ∧ type.results.length ≤ 1 ∧
      ins = type.params ∧ outs = type.results
  | .callIndirect =>
    ∃ type, scope.module.typeAt instr.index = .ok type ∧ type.results.length ≤ 1 ∧
      ins = type.params ++ [.i32] ∧ outs = type.results
  | _ => False

/-- An instruction after which control never goes on takes `carried` off the stack. -/
def Leaves (scope : Scope) (instr : Instr) (carried : List ValueType) : Prop :=
  match instr.op with
  | .unreachable => carried = []
  | .br => scope.label? instr.index = some carried
  | .brTable =>
    ∃ types, carried = types ++ [.i32] ∧
      ∀ depth ∈ instr.default :: instr.targets, scope.label? depth = some types
  | .ret => carried = scope.results
  | _ => False

/-- The types a branch to a construct carries: none back to the start of a loop. -/
def label (instr : Instr) : List ValueType :=
  if instr.op = .loop then [] else instr.results

/-- The operands a construct is entered with. -/
def condition (instr : Instr) : List ValueType :=
  if instr.op = .branchIf then [.i32] else []

/-- The bodies of a construct.  A missing else arm counts as an empty one. -/
def arms (instr : Instr) : List (List Instr) :=
  if instr.op = .branchIf then [instr.body, if instr.hasElse then instr.elseBody else []]
  else [instr.body]

end Instr

/-- A body takes a stack to the types it has to leave behind. -/
inductive Checks (dead : Bool) :
    Scope → List Instr → List ValueType → List ValueType → Prop where
  | done {scope : Scope} {final : List ValueType} : Checks dead scope [] final final
  | plain {scope : Scope} {instr : Instr} {rest : List Instr}
      {stack ins outs final : List ValueType}
      (takes : instr.Takes scope ins outs) (numeric : Numeric (ins ++ outs))
      (next : Checks dead scope rest (stack ++ outs) final) :
      Checks dead scope (instr :: rest) (stack ++ ins) final
  | leave {scope : Scope} {instr : Instr} {rest : List Instr}
      {stack carried anything final : List ValueType}
      (leaves : instr.Leaves scope carried)
      (unmarked : ∀ other ∈ rest, other.op.isMarker = false)
      (next : dead = true → Checks dead scope rest anything final) :
      Checks dead scope (instr :: rest) (stack ++ carried) final
  | branchIf {scope : Scope} {instr : Instr} {rest : List Instr}
      {stack carried final : List ValueType} (op : instr.op = .brIf)
      (target : scope.label? instr.index = some carried)
      (next : Checks dead scope rest (stack ++ carried) final) :
      Checks dead scope (instr :: rest) (stack ++ carried ++ [.i32]) final
  | construct {scope : Scope} {instr : Instr} {rest : List Instr}
      {stack final : List ValueType} (op : instr.op.isStructured = true)
      (few : instr.results.length ≤ 1) (numeric : Numeric instr.results)
      (arms : ∀ arm ∈ instr.arms,
        Checks dead (scope.enter instr.label) arm [] instr.results)
      (next : Checks dead scope rest (stack ++ instr.results) final) :
      Checks dead scope (instr :: rest) (stack ++ instr.condition) final

/-- Typing a body meets, before any other fault, one that no instruction shows by its
own operands. -/
inductive Slips : Scope → List Instr → List ValueType → List ValueType → Prop where
  /-- The values at the end of a body are not the declared ones. -/
  | fall {scope : Scope} {stack final : List ValueType} (differs : stack ≠ final) :
      Slips scope [] stack final
  /-- A marker stands where an instruction should. -/
  | marker {scope : Scope} {instr : Instr} {rest : List Instr} {stack final : List ValueType}
      (op : instr.op.isMarker = true) : Slips scope (instr :: rest) stack final
  | deadMarker {scope : Scope} {instr marker : Instr} {rest : List Instr}
      {stack carried final : List ValueType} (leaves : instr.Leaves scope carried)
      (member : marker ∈ rest) (op : marker.op.isMarker = true) :
      Slips scope (instr :: rest) (stack ++ carried) final
  /-- An instruction works on a type outside the language. -/
  | alien {scope : Scope} {instr : Instr} {rest : List Instr}
      {stack ins outs final : List ValueType} (takes : instr.Takes scope ins outs)
      (outside : ¬ Numeric (ins ++ outs)) :
      Slips scope (instr :: rest) (stack ++ ins) final
  | afterPlain {scope : Scope} {instr : Instr} {rest : List Instr}
      {stack ins outs final : List ValueType}
      (takes : instr.Takes scope ins outs) (numeric : Numeric (ins ++ outs))
      (next : Slips scope rest (stack ++ outs) final) :
      Slips scope (instr :: rest) (stack ++ ins) final
  /-- A branch does not carry the types its target declares. -/
  | branch {scope : Scope} {instr : Instr} {rest : List Instr}
      {stack carried final : List ValueType} (op : instr.op = .br)
      (target : scope.label? instr.index = some carried) (differs : ¬ carried <:+ stack) :
      Slips scope (instr :: rest) stack final
  | branchIf {scope : Scope} {instr : Instr} {rest : List Instr}
      {stack carried final : List ValueType} (op : instr.op = .brIf)
      (target : scope.label? instr.index = some carried) (differs : ¬ carried <:+ stack) :
      Slips scope (instr :: rest) (stack ++ [.i32]) final
  | afterBranchIf {scope : Scope} {instr : Instr} {rest : List Instr}
      {stack carried final : List ValueType} (op : instr.op = .brIf)
      (target : scope.label? instr.index = some carried)
      (next : Slips scope rest (stack ++ carried) final) :
      Slips scope (instr :: rest) (stack ++ carried ++ [.i32]) final
  | table {scope : Scope} {instr : Instr} {rest : List Instr} {depth : UInt32}
      {stack carried final : List ValueType} (op : instr.op = .brTable)
      (member : depth ∈ instr.default :: instr.targets)
      (target : scope.label? depth = some carried) (differs : ¬ carried <:+ stack) :
      Slips scope (instr :: rest) (stack ++ [.i32]) final
  /-- A construct declares a type outside the language. -/
  | alienResult {scope : Scope} {instr : Instr} {rest : List Instr}
      {stack final : List ValueType} (op : instr.op.isStructured = true)
      (outside : ¬ Numeric instr.results) :
      Slips scope (instr :: rest) (stack ++ instr.condition) final
  | body {scope : Scope} {instr : Instr} {rest arm : List Instr}
      {stack final : List ValueType} (op : instr.op.isStructured = true)
      (member : arm ∈ instr.arms)
      (inside : Slips (scope.enter instr.label) arm [] instr.results) :
      Slips scope (instr :: rest) (stack ++ instr.condition) final
  | afterConstruct {scope : Scope} {instr : Instr} {rest : List Instr}
      {stack final : List ValueType} (op : instr.op.isStructured = true)
      (arms : ∀ arm ∈ instr.arms,
        Checks false (scope.enter instr.label) arm [] instr.results)
      (next : Slips scope rest (stack ++ instr.results) final) :
      Slips scope (instr :: rest) (stack ++ instr.condition) final

end WasmX64

/-!
## What types does not slip

The stack before an instruction determines what it takes and leaves, so a body that
checks cannot also slip.  Typing the dead code as well is the stronger check.
-/

namespace WasmX64

variable {scope : Scope} {instr : Instr} {rest : List Instr}
  {stack other final : List ValueType}

namespace Instr

/-- How many operands an instruction takes does not depend on their types. -/
theorem Takes.length_eq {ins outs ins' outs' : List ValueType}
    (takes : instr.Takes scope ins outs) (takes' : instr.Takes scope ins' outs') :
    ins.length = ins'.length := by
  unfold Takes at takes takes'
  cases op : instr.op
  all_goals
    simp only [op] at takes takes'
  case call | callIndirect =>
    obtain ⟨type, found, _, rfl, _⟩ := takes
    obtain ⟨type', found', _, rfl, _⟩ := takes'
    rw [found] at found'
    cases found'
    rfl
  all_goals grind

theorem Takes.outs_eq {ins outs outs' : List ValueType}
    (takes : instr.Takes scope ins outs) (takes' : instr.Takes scope ins outs') :
    outs = outs' := by
  unfold Takes at takes takes'
  cases op : instr.op <;> simp only [op] at takes takes' <;> grind

theorem Takes.unique {ins outs ins' outs' : List ValueType}
    (takes : instr.Takes scope ins outs) (takes' : instr.Takes scope ins' outs')
    (same : stack ++ ins = other ++ ins') : stack = other ∧ ins = ins' ∧ outs = outs' := by
  obtain ⟨rfl, rfl⟩ := List.append_inj' same (takes.length_eq takes')
  exact ⟨rfl, rfl, takes.outs_eq takes'⟩

end Instr

theorem Opcode.not_structured_of_plain {op : Opcode} (plain : op.isPlain = true) :
    ¬ op.isStructured = true := by
  cases op <;> simp [isPlain, isStructured] at plain ⊢

theorem Opcode.not_marker_of_plain {op : Opcode} (plain : op.isPlain = true) :
    ¬ op.isMarker = true := by
  cases op <;> simp [isPlain, isMarker] at plain ⊢

theorem Opcode.not_marker_of_structured {op : Opcode} (structured : op.isStructured = true) :
    ¬ op.isMarker = true := by
  cases op <;> simp [isStructured, isMarker] at structured ⊢

theorem Instr.Takes.isPlain {ins outs : List ValueType}
    (takes : instr.Takes scope ins outs) : instr.op.isPlain = true := by
  unfold Takes at takes
  cases op : instr.op <;> simp only [op] at takes <;> rfl

theorem Instr.Leaves.op_mem {carried : List ValueType} (leaves : instr.Leaves scope carried) :
    instr.op = .unreachable ∨ instr.op = .br ∨ instr.op = .brTable ∨ instr.op = .ret := by
  unfold Leaves at leaves
  cases op : instr.op <;> simp [op] at leaves ⊢

theorem Instr.Leaves.not_takes {carried ins outs : List ValueType}
    (leaves : instr.Leaves scope carried) : ¬ instr.Takes scope ins outs := by
  intro takes
  have plain := takes.isPlain
  rcases leaves.op_mem with op | op | op | op <;> simp [op, Opcode.isPlain] at plain

theorem Checks.not_slips {code : List Instr} (checks : Checks false scope code stack final) :
    ¬ Slips scope code stack final := by
  induction checks with
  | done =>
    intro slips
    cases slips with
    | fall differs => exact differs rfl
  | @plain scope instr rest stack ins outs final takes numeric _ ih =>
    intro slips
    have plain := takes.isPlain
    generalize whole : stack ++ ins = before at slips
    cases slips with
    | marker op => exact Opcode.not_marker_of_plain plain op
    | deadMarker leaves _ _ => exact leaves.not_takes takes
    | alien takes' outside =>
      obtain ⟨_, rfl, rfl⟩ := takes.unique takes' whole
      exact outside numeric
    | afterPlain takes' _ next =>
      obtain ⟨rfl, rfl, rfl⟩ := takes.unique takes' whole
      exact ih next
    | branch op _ _ => simp [op, Opcode.isPlain] at plain
    | branchIf op _ _ => simp [op, Opcode.isPlain] at plain
    | afterBranchIf op _ _ => simp [op, Opcode.isPlain] at plain
    | table op _ _ _ => simp [op, Opcode.isPlain] at plain
    | alienResult op _ => exact Opcode.not_structured_of_plain plain op
    | body op _ _ => exact Opcode.not_structured_of_plain plain op
    | afterConstruct op _ _ => exact Opcode.not_structured_of_plain plain op
  | @leave scope instr rest stack carried anything final leaves unmarked _ _ =>
    intro slips
    have shapes := leaves.op_mem
    generalize whole : stack ++ carried = before at slips
    cases slips with
    | marker op => rcases shapes with h | h | h | h <;> simp [h, Opcode.isMarker] at op
    | deadMarker _ member op => simp [unmarked _ member] at op
    | alien takes _ => exact leaves.not_takes takes
    | afterPlain takes _ _ => exact leaves.not_takes takes
    | branch op target differs =>
      simp only [Instr.Leaves, op] at leaves
      rw [leaves] at target
      cases target
      exact differs ⟨stack, whole⟩
    | branchIf op _ _ => simp [op] at shapes
    | afterBranchIf op _ _ => simp [op] at shapes
    | table op member target differs =>
      simp only [Instr.Leaves, op] at leaves
      obtain ⟨types, rfl, all⟩ := leaves
      rw [all _ member] at target
      cases target
      rw [← List.append_assoc] at whole
      exact differs ⟨stack, (List.append_inj' whole rfl).1⟩
    | alienResult op _ => rcases shapes with h | h | h | h <;> simp [h, Opcode.isStructured] at op
    | body op _ _ => rcases shapes with h | h | h | h <;> simp [h, Opcode.isStructured] at op
    | afterConstruct op _ _ =>
      rcases shapes with h | h | h | h <;> simp [h, Opcode.isStructured] at op
  | @branchIf scope instr rest stack carried final op target _ ih =>
    intro slips
    generalize whole : stack ++ carried ++ [.i32] = before at slips
    cases slips with
    | marker op' => simp [op, Opcode.isMarker] at op'
    | deadMarker leaves _ _ => simpa [op] using leaves.op_mem
    | alien takes _ => simpa [op, Opcode.isPlain] using takes.isPlain
    | afterPlain takes _ _ => simpa [op, Opcode.isPlain] using takes.isPlain
    | branch op' _ _ => simp [op] at op'
    | branchIf _ target' differs =>
      rw [target] at target'
      cases target'
      exact differs ⟨stack, (List.append_inj' whole rfl).1⟩
    | afterBranchIf _ target' next =>
      rw [target] at target'
      cases target'
      rw [(List.append_inj' whole rfl).1] at ih
      exact ih next
    | table op' _ _ _ => simp [op] at op'
    | alienResult op' _ => simp [op, Opcode.isStructured] at op'
    | body op' _ _ => simp [op, Opcode.isStructured] at op'
    | afterConstruct op' _ _ => simp [op, Opcode.isStructured] at op'
  | @construct scope instr rest stack final op _ numeric _ _ arms ih =>
    intro slips
    generalize whole : stack ++ instr.condition = before at slips
    cases slips with
    | marker op' => exact Opcode.not_marker_of_structured op op'
    | deadMarker leaves _ _ =>
      rcases leaves.op_mem with h | h | h | h <;> simp [h, Opcode.isStructured] at op
    | alien takes _ => exact Opcode.not_structured_of_plain takes.isPlain op
    | afterPlain takes _ _ => exact Opcode.not_structured_of_plain takes.isPlain op
    | branch op' _ _ => simp [op', Opcode.isStructured] at op
    | branchIf op' _ _ => simp [op', Opcode.isStructured] at op
    | afterBranchIf op' _ _ => simp [op', Opcode.isStructured] at op
    | table op' _ _ _ => simp [op', Opcode.isStructured] at op
    | alienResult _ outside => exact outside numeric
    | body _ member inside => exact arms _ member inside
    | afterConstruct _ _ next =>
      rw [(List.append_inj' whole rfl).1] at ih
      exact ih next

end WasmX64
