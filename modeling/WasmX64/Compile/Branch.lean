import WasmX64.Compile.Allocation
import WasmX64.Sequence.Arithmetic

/-!
# Blocks and branches

Lowering of the structured constructs.  Every branch moves the live layout into
the join layout of its target; the first branch to a target fixes that layout.
-/

namespace WasmX64.Compile

def branch (label : Label) (depth : Nat) : Compile Unit :=
  machine { kind := .uncondBranch, depth } (emit [.jump label .far])

def branchIfZero (label : Label) (reg : Register) (depth : Nat) : Compile Unit :=
  machine { kind := .condBranch, depth }
    (emit (Sequence.compareAndJump .equal label .i32 reg .absent))

/-- Jumps to a label when a table index is at or above a bound. -/
def branchIfAtLeast (label : Label) (value bound : Register) : Compile Unit :=
  machine { kind := .brTableBranch }
    (emit (Sequence.compareAndJump .aboveEqual label .i32 value bound))

def bind (label : Label) (depth : Nat) : Compile Unit :=
  machine { kind := .bind, depth } (bindLabel label)

def enter (kind : BlockKind) (instr : Instr) : Compile Unit := do
  if 1 < instr.results.length then
    throw (.unsupported (.blockResults instr.results.length))
  let base : Int := (← get).layout.height
  openBlock kind instr.results fun block =>
    { block with
      base
      join := { block.join with base }
      pending := instr.body
      hasElse := instr.hasElse
      elseBody := instr.elseBody }

def lowerBlock (instr : Instr) : Compile Unit := do
  enter .block instr
  record (.controlStart .block)

/-- Lowers `loop`: locals go to the frame, and the layout at the header is what
branches back to it restore. -/
def lowerLoop (instr : Instr) : Compile Unit := do
  enter .loop instr
  spillLocals
  record (.controlStart .loop)
  let block ← innermost
  bind block.label 0
  let join := { (← get).layout with base := block.base }
  modifyBlock 0 ({ · with join, startReached := true })

/-- Lowers `if`: the layout after the condition is kept for the else arm. -/
def lowerIf (instr : Instr) : Compile Unit := do
  expect 0 .i32
  let condition ← popRegister RegSet.empty
  enter .ifThen instr
  record (.controlStart .ifThen)
  branchIfZero (← innermost).elseLabel condition 0
  let layout := (← get).layout
  modifyBlock 0 ({ · with elseLayout := some layout })

def lowerElse : Compile Unit := do
  let block ← innermost
  if block.kind ≠ .ifThen then malformed .elseOutside
  if block.isReached then
    let layout := (← get).layout
    let join ← if block.endReached then pure block.join
      else initJoin block.join layout block.arity
    modifyBlock 0 ({ · with join })
    mergeAll join layout
    branch block.label 0
    modifyBlock 0 ({ · with endReached := true })
  modifyBlock 0 ({ · with kind := .elseArm })
  bind block.elseLabel 0
  let parent ← blockAt 1
  modifyLayout fun _ => block.elseLayout.getD {}
  modifyBlock 0 fun block =>
    { block with
      elseLayout := none
      reach := parent.innerReach
      pending := block.elseBody }

/-- Puts the results of a block that ends unreachably into frame slots, so that the
code behind it sees the right height. -/
def resetToResults (block : Block) : Compile Unit := do
  modifyLayout (·.truncate block.base.toNat)
  for type in block.results do
    needSlot (← get).layout.height
    modifyLayout (·.push (.inFrame type))

def demandEndHeight (block : Block) : Compile Unit := do
  let height := (← get).layout.height
  if (height : Int) ≠ block.base + block.arity then
    malformed (.endHeight height (block.base + block.arity))

/-- Ends an `if` without else: the then arm jumps over the missing one, whose
layout is that of the condition. -/
def finishOneArmed (block : Block) : Compile Unit := do
  if block.arity ≠ 0 then malformed (.ifWithoutElse block.arity)
  let elseLayout := block.elseLayout.getD {}
  let join ← if !block.endReached && block.isReached then initJoin block.join elseLayout 0
    else pure block.join
  if block.isReached then
    mergeAll join (← get).layout
    branch block.label 0
  bind block.elseLabel 0
  if block.endReached || block.isReached then
    mergeAll join elseLayout
    modifyLayout fun _ => join
  else modifyLayout fun _ => elseLayout

/-- Moves the result into its register and leaves the function. -/
def returnFromFunction : Compile Unit := do
  let subject ← read
  let layout := (← get).layout
  let results : Nat := if subject.signature.result.isSome then 1 else 0
  if (layout.height : Int) < (← innermost).base + results ∨
      layout.height < subject.locals + results then
    malformed (.returnValues results layout.height)
  match subject.signature.result with
  | none => pure ()
  | some (type, reg) =>
    expect 0 type
    match layout.top? with
    | none => throw .missing
    | some slot =>
      transfer layout do
        TransferM.loadInto reg slot ((layout.height : Int) - 1)
        TransferM.execute
  machine { kind := .ret } (emit Sequence.epilogue)

def endFunction (block : Block) : Compile Unit := do
  if block.reach ≠ .unreachable then
    demandEndHeight block
    returnFromFunction
  record (.controlEnd block.kind)
  closeBlock

/-- Brings the layout at the end of a nested block into the shape that the code
behind the block starts with. -/
def settleEnd (block : Block) : Compile Unit := do
  if block.isOneArmed then finishOneArmed block
  else if !block.isReached && (block.kind = .loop || !block.endReached) then
    resetToResults block
  else if block.endReached then
    if block.isReached then mergeAll block.join (← get).layout
    modifyLayout fun _ => block.join
  else demandEndHeight block

def endBlock (block : Block) : Compile Unit := do
  settleEnd block
  record (.controlEnd block.kind)
  if block.kind ≠ .loop then bind block.label 0
  closeBlock
  let continues := block.isReached || block.endReached || block.isOneArmed
  modifyBlock 0 fun parent =>
    if !continues && parent.isReached then { parent with reach := .specOnly } else parent

def lowerEnd : Compile Unit := do
  let block ← innermost
  if (← get).blocks.length = 1 then endFunction block else endBlock block

def target (depth : Nat) : Compile Block := do
  let blocks := (← get).blocks
  match blocks[depth]? with
  | some block => return block
  | none => malformed (.branchDepth depth blocks.length)

def leavesFunction (depth : Nat) : Compile Bool :=
  return depth + 1 = (← get).blocks.length

/-- Branches to an enclosing block, fixing its join layout if nothing has yet. -/
def branchTo (depth : Nat) : Compile Unit := do
  let block ← target depth
  let layout := (← get).layout
  let arity : Int := block.branchArity
  let join ← if block.targetReached then pure block.join
    else initJoin { base := block.join.base } layout arity
  modifyBlock depth ({ · with join })
  mergeBranch join layout arity
  branch block.label depth
  modifyBlock depth Block.markTarget

def branchOrReturn (depth : Nat) : Compile Unit := do
  if ← leavesFunction depth then returnFromFunction else branchTo depth

def finishBlock : Compile Unit := modifyBlock 0 Block.finish

def lowerBr (depth : Nat) : Compile Unit := do
  let _ ← target depth
  if (← innermost).isReached || (← leavesFunction depth) then branchOrReturn depth
  finishBlock

def lowerBrIf (depth : Nat) : Compile Unit := do
  let _ ← target depth
  expect 0 .i32
  if !(← innermost).isReached then modifyLayout Layout.drop
  else
    let condition ← popRegister RegSet.empty
    let after ← newLabel
    branchIfZero after condition depth
    branchOrReturn depth
    bind after depth

/-- Emits the branch of a depth once and jumps to it when it is needed again. -/
def lowerCase (cases : Array Label) (depth : Nat) : Compile Unit := do
  match cases[depth]? with
  | none => throw .missing
  | some label =>
    if ((← get).output.code.label label).isBound then branch label depth
    else
      bind label depth
      branchOrReturn depth

/-- A binary search for a table index between two bounds. -/
def lowerCases (cases : Array Label) (targets : Array UInt32) (value bound : Register) :
    Nat → Nat → Nat → Compile Unit
  | 0, _, _ => pure ()
  | fuel + 1, first, last => do
    if last - first = 1 then lowerCase cases (targets[first]?.getD 0).toNat
    else
      let split := first + (last - first) / 2
      let upper ← newLabel
      emit (Sequence.loadConstant .i32 bound (UInt64.ofNat split))
      branchIfAtLeast upper value bound
      lowerCases cases targets value bound fuel first split
      bind upper 0
      lowerCases cases targets value bound fuel split last

/-- Demands that every target of a table carries as many values as the default. -/
def demandTargets (wanted : Nat) : List UInt32 → Compile Unit
  | [] => pure ()
  | depth :: rest => do
    let block ← target depth.toNat
    if block.branchArity ≠ wanted then
      malformed (.tableArity depth block.branchArity wanted)
    demandTargets wanted rest

def lowerBrTable (instr : Instr) : Compile Unit := do
  let default ← target instr.default.toNat
  demandTargets default.branchArity instr.targets
  expect 0 .i32
  if !(← innermost).isReached then modifyLayout Layout.drop
  else
    let value ← popRegister RegSet.empty
    let cases ← (List.range (← get).blocks.length).mapM fun _ => newLabel
    let cases := cases.toArray
    let count := instr.targets.length
    if 0 < count then
      let bound ← takeRegister .gp [] (RegSet.single value)
      let beyond ← newLabel
      emit (Sequence.loadConstant .i32 bound (UInt64.ofNat count))
      branchIfAtLeast beyond value bound
      lowerCases cases instr.targets.toArray value bound count 0 count
      bind beyond instr.default.toNat
    lowerCase cases instr.default.toNat
  finishBlock

def lowerUnreachable : Compile Unit := do
  let label ← addTrap .unreachable
  emit [.jump label .far]
  finishBlock

end WasmX64.Compile
