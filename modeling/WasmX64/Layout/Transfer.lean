import WasmX64.Compile.Fault
import WasmX64.Sequence.Moves

/-!
# Transfers between layouts

A transfer turns one layout into another.  Writes to frame slots are emitted as
they are recorded.  Register moves are collected and ordered so that no register
is overwritten before every move reading it has run; a cycle is broken by way of a
frame slot.  Loads into registers come last.
-/

namespace WasmX64

structure Output where
  code : Code := {}
  frameSlots : Int := 0
deriving Inhabited

namespace Output

def emit (output : Output) (steps : List Step) : Output :=
  { output with code := output.code.place steps }

def needSlot (output : Output) (index : Int) : Output :=
  if output.frameSlots < index + 1 then { output with frameSlots := index + 1 } else output

end Output

/-- A pending register move: where the value comes from and its type. -/
structure Move where
  source : Register
  type : ValueType
deriving DecidableEq, Repr, Inhabited

inductive Load where
  | const (type : ValueType) (value : Int32)
  | slot (type : ValueType) (index : Int)
deriving DecidableEq, Repr, Inhabited

structure Transfer where
  output : Output
  /-- The first frame slot that is free for breaking cycles. -/
  spillBase : Int
  moveTargets : RegSet := RegSet.empty
  moves : Vector Move 32 := Vector.replicate 32 ⟨.rax, .unknown 0⟩
  /-- How many pending moves read a register. -/
  reads : Vector Int 32 := Vector.replicate 32 0
  loadTargets : RegSet := RegSet.empty
  loads : Vector Load 32 := Vector.replicate 32 (.slot (.unknown 0) 0)
  slotWrites : List Int := []
  slotReads : List Int := []
deriving Inhabited

/-- Actions on a transfer; what was done before a fault stays done. -/
abbrev TransferM := EStateM Fault Transfer

namespace Transfer

/-- A transfer that reads from a layout while another is live: cycles are broken by
way of the frame slots above both. -/
def start (output : Output) (live source : Layout) : Transfer :=
  { output, spillBase := max live.height source.height }

def moveInto (transfer : Transfer) (target : Register) : Move :=
  transfer.moves.toArray[target.code.toNat]?.getD ⟨.rax, .unknown 0⟩

def readers (transfer : Transfer) (reg : Register) : Int :=
  transfer.reads.toArray[reg.code.toNat]?.getD 0

def loadInto (transfer : Transfer) (target : Register) : Load :=
  transfer.loads.toArray[target.code.toNat]?.getD (.slot (.unknown 0) 0)

def setMove (transfer : Transfer) (target : Register) (move : Move) : Transfer :=
  { transfer with moves := transfer.moves.setIfInBounds target.code.toNat move }

def addReaders (transfer : Transfer) (reg : Register) (change : Int) : Transfer :=
  { transfer with
    reads := transfer.reads.setIfInBounds reg.code.toNat (transfer.readers reg + change) }

def setLoad (transfer : Transfer) (target : Register) (load : Load) : Transfer :=
  { transfer with loads := transfer.loads.setIfInBounds target.code.toNat load }

def emit (transfer : Transfer) (steps : List Step) : Transfer :=
  { transfer with output := transfer.output.emit steps }

def needSlot (transfer : Transfer) (index : Int) : Transfer :=
  { transfer with output := transfer.output.needSlot index }

end Transfer

namespace TransferM

def demand (reg : Register) : TransferM Unit := do
  if !reg.isMachine then throw .missing

/-- Records a move between registers.  One register may hold the zero of both
float widths, so the wider type of two equal moves counts. -/
def moveRegister (target source : Register) (type : ValueType) : TransferM Unit := do
  let transfer ← get
  if transfer.moveTargets.has target then
    let pending := transfer.moveInto target
    if pending.source ≠ source then
      throw (.broken (.conflictingMoves target pending.source source))
    if type.is64 then modify (·.setMove target { pending with type })
  else
    modify fun transfer => { transfer with moveTargets := transfer.moveTargets.insert target }
    demand source
    modify (·.addReaders source 1)
    demand target
    modify (·.setMove target ⟨source, type⟩)

def loadConst (target : Register) (type : ValueType) (value : Int32) : TransferM Unit := do
  if (← get).loadTargets.has target then throw (.broken (.loadedTwice target))
  modify fun transfer => { transfer with loadTargets := transfer.loadTargets.insert target }
  demand target
  modify (·.setLoad target (.const type value))

/-- Records the load of a frame slot.  A register spilled to several slots is
reloaded from the first of them. -/
def loadSlot (target : Register) (index : Int) (type : ValueType) : TransferM Unit := do
  if (← get).slotWrites.contains index then throw (.broken (.reloadAfterWrite index))
  modify fun transfer => { transfer with slotReads := index :: transfer.slotReads }
  if (← get).loadTargets.has target then return
  modify fun transfer => { transfer with loadTargets := transfer.loadTargets.insert target }
  demand target
  modify (·.setLoad target (.slot type index))

def loadInto (target : Register) (source : Slot) (index : Int) : TransferM Unit :=
  match source.place with
  | .frame => loadSlot target index source.type
  | .reg reg => do
    if target.regClass ≠ reg.regClass then throw (.broken (.acrossBanks reg target))
    if target ≠ reg then moveRegister target reg source.type
  | .const value => loadConst target source.type value
  | .unknown _ => pure ()

def writeSlot (source : Slot) (targetIndex sourceIndex : Int) : TransferM Unit := do
  if (← get).slotReads.contains targetIndex then
    throw (.broken (.writeBeforeReload targetIndex))
  match source.place with
  | .frame =>
    if (← get).slotWrites.contains sourceIndex then
      throw (.broken (.readAfterWrite sourceIndex))
    let scratch : Register := if source.type.isFloat then .xmm15 else .r10
    modify (·.emit (Sequence.fill source.type scratch sourceIndex))
    modify (·.emit (Sequence.spill source.type targetIndex scratch))
  | .reg reg => modify (·.emit (Sequence.spill source.type targetIndex reg))
  | .const value =>
    modify (·.emit
      (Sequence.spillConstant source.type targetIndex (Slot.constBits source.type value)))
  | .unknown _ => pure ()
  modify (·.needSlot targetIndex)
  modify fun transfer => { transfer with slotWrites := targetIndex :: transfer.slotWrites }

def transferSlot (target source : Slot) (targetIndex sourceIndex : Int) : TransferM Unit :=
  match target.place with
  | .frame =>
    if source.place = .frame ∧ targetIndex = sourceIndex then pure ()
    else writeSlot source targetIndex sourceIndex
  | .reg reg => loadInto reg source sourceIndex
  | .const value =>
    if source.place = .const value then pure ()
    else throw (.broken (.constantMerge source target))
  | .unknown _ => pure ()

/-- Takes a finished move off the list and runs the move into its source if nothing
else reads that register.  Every round takes one move off. -/
def finishMove : Nat → Register → TransferM Unit
  | 0, _ => pure ()
  | fuel + 1, target => do
    let source := ((← get).moveInto target).source
    modify fun transfer =>
      { transfer.addReaders source (-1) with moveTargets := transfer.moveTargets.erase target }
    let transfer ← get
    if transfer.readers source = 0 ∧ transfer.moveTargets.has source then
      let move := transfer.moveInto source
      modify (·.emit (Sequence.move move.type source move.source))
      finishMove fuel source

def runMove (target : Register) : TransferM Unit := do
  let move := (← get).moveInto target
  modify (·.emit (Sequence.move move.type target move.source))
  finishMove 33 target

/-- Breaks the remaining cycles: one source of each goes through a frame slot. -/
def breakCycles : Nat → Int → TransferM Unit
  | 0, _ => pure ()
  | fuel + 1, slot => do
    match (← get).moveTargets.first? with
    | none => pure ()
    | some target =>
      let move := (← get).moveInto target
      modify (·.emit (Sequence.spill move.type slot move.source))
      modify (·.needSlot slot)
      loadSlot target slot move.type
      finishMove 33 target
      breakCycles fuel (slot + 1)

/-- Runs the moves whose target no pending move reads, then breaks the cycles. -/
def runMoves : TransferM Unit := do
  for target in (← get).moveTargets.toList do
    let transfer ← get
    if transfer.moveTargets.has target && transfer.readers target = 0 then runMove target
  breakCycles 33 (← get).spillBase

def runLoads : TransferM Unit := do
  for target in (← get).loadTargets.toList do
    match (← get).loadInto target with
    | .const type value =>
      modify (·.emit (Sequence.loadConstant type target (Slot.constBits type value)))
    | .slot type index => modify (·.emit (Sequence.fill type target index))
  modify fun transfer => { transfer with loadTargets := RegSet.empty }

def execute : TransferM Unit := do
  runMoves
  runLoads

end TransferM

end WasmX64
