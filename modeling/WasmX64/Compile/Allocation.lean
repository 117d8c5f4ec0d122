import WasmX64.Compile.State

/-!
# Register allocation

Handing out registers and making room by spilling.  Victims rotate, so that
pressure does not keep evicting the same value.  Operands are popped no deeper
than the base of the innermost block.
-/

namespace WasmX64.Compile

/-- Stores the slots below an index that a register holds, topmost first, until
`remaining` of them are found.  The result is how many were not. -/
def spillHolders (reg : Register) : Nat → Nat → Compile Nat
  | 0, remaining => pure remaining
  | index + 1, remaining => do
    if remaining = 0 then return 0
    match (← get).layout.slot? index with
    | some slot =>
      if slot.place = .reg reg then
        emit (Sequence.spill slot.type index reg)
        needSlot index
        modifyLayout (·.setSlot index (.inFrame slot.type))
        spillHolders reg index (remaining - 1)
      else spillHolders reg index remaining
    | none => spillHolders reg index remaining

def spillRegister (reg : Register) : Compile Unit := do
  if !reg.isMachine then throw .missing
  let layout := (← get).layout
  let remaining ← spillHolders reg layout.height (layout.count reg)
  if remaining ≠ 0 then throw (.broken (.useCount reg))
  modifyLayout (·.forget reg)

def spillOne (bank : RegClass) (pinned : RegSet) : Compile Register := do
  let layout := (← get).layout
  let candidates :=
    ((layout.used.inter (RegSet.ofClass bank)).diff pinned).diff RegSet.reserved
  if candidates.isEmpty then throw (.broken (.noRegister bank pinned))
  let fresh := candidates.diff layout.lastSpilled
  let spared := if fresh.isEmpty then RegSet.empty else layout.lastSpilled
  let reg := (if fresh.isEmpty then candidates else fresh).first
  modifyLayout ({ · with lastSpilled := spared.insert reg })
  spillRegister reg
  return reg

def takeRegister (bank : RegClass) (wishes : List Register) (pinned : RegSet) :
    Compile Register := do
  let layout := (← get).layout
  let suits (reg : Register) : Bool :=
    reg.isMachine && reg.regClass = bank && layout.isFree reg && !pinned.has reg
  match wishes.find? suits with
  | some reg => return reg
  | none =>
    match (layout.unused bank pinned).first? with
    | some reg => return reg
    | none => spillOne bank pinned

def spillSlot (index : Int) : Compile Unit := do
  match (← get).layout.slot? index with
  | none => throw .missing
  | some slot =>
    match slot.place with
    | .reg reg =>
      emit (Sequence.spill slot.type index reg)
      modifyLayout (·.release reg)
      needSlot index
      modifyLayout (·.setSlot index.toNat (.inFrame slot.type))
    | .const value =>
      emit (Sequence.spillConstant slot.type index (Slot.constBits slot.type value))
      needSlot index
      modifyLayout (·.setSlot index.toNat (.inFrame slot.type))
    | _ => pure ()

def spillLocals : Compile Unit := do
  for index in List.range (← read).locals do
    spillSlot index

def materialize (reg : Register) (slot : Slot) (index : Int) : Compile Unit :=
  match slot.place with
  | .frame => emit (Sequence.fill slot.type reg index)
  | .const value => emit (Sequence.loadConstant slot.type reg (Slot.constBits slot.type value))
  | .reg source => emit (Sequence.move slot.type reg source)
  | .unknown _ => pure ()

/-- Takes the top operand off, its register still counted. -/
def popSlot : Compile Slot := do
  let layout := (← get).layout
  if (layout.height : Int) ≤ (← innermost).base then malformed .underflow
  match layout.top? with
  | some slot =>
    modifyLayout Layout.pop
    return slot
  | none => throw .missing

/-- Takes the top operand off into a register that is not pinned.  The register is
free afterwards; callers pin it while they need it. -/
def popRegister (pinned : RegSet) : Compile Register := do
  let slot ← popSlot
  match slot.place with
  | .reg reg =>
    modifyLayout (·.release reg)
    return reg
  | _ =>
    let reg ← takeRegister slot.type.regClass [] pinned
    materialize reg slot (← get).layout.height
    return reg

def dropOperand : Compile Unit := do
  let slot ← popSlot
  match slot.place with
  | .reg reg => modifyLayout (·.release reg)
  | _ => pure ()

def pushRegister (type : ValueType) (reg : Register) : Compile Unit :=
  modifyLayout (·.push (.inReg type reg))

def pushConst (type : ValueType) (value : Int32) : Compile Unit :=
  modifyLayout (·.push (.ofConst type value))

def operandType (depth : Nat) : Compile ValueType := do
  let layout := (← get).layout
  if (layout.height : Int) - depth ≤ (← innermost).base then malformed .underflow
  match layout.peek? depth with
  | some slot => return slot.type
  | none => throw .missing

def expect (depth : Nat) (type : ValueType) : Compile Unit := do
  let found ← operandType depth
  if found ≠ type then malformed (.operandType depth found type)

end WasmX64.Compile
