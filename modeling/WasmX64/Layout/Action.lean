import WasmX64.Compile.Fault

/-!
# Checked layout operations

The operations of a layout as actions that demand what they work on: a register of
the machine to count, a slot to take away or look at.
-/

namespace WasmX64.Layout

/-- Actions on a layout; what was done before a fault stays done. -/
abbrev LayoutM := EStateM Fault Layout

namespace LayoutM

def demand (reg : Register) : LayoutM Unit := do
  if !reg.isMachine then throw .missing

def retain (reg : Register) : LayoutM Unit := do
  demand reg
  modify (·.retain reg)

def release (reg : Register) : LayoutM Unit := do
  demand reg
  modify (·.release reg)

def forget (reg : Register) : LayoutM Unit := do
  demand reg
  modify (·.forget reg)

def push (slot : Slot) : LayoutM Unit := do
  if let some reg := slot.reg? then demand reg
  modify (·.push slot)

def peek (depth : Int) : LayoutM Slot := do
  match (← get).peek? depth with
  | some slot => return slot
  | none => throw .missing

def pop : LayoutM Slot := do
  let slot ← peek 0
  modify (·.pop)
  return slot

def drop : LayoutM Slot := do
  let slot ← peek 0
  modify (·.drop)
  return slot

/-- Drops slots until `height` are left; below zero there is nothing to drop. -/
def truncate (height : Int) : LayoutM Unit := do
  modify (·.truncate height.toNat)
  if height < 0 then throw .missing

end LayoutM

end WasmX64.Layout
