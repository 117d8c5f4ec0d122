import WasmX64.Machine.Register

/-!
# Layouts

The layout of locals and operands at one point of a function.  Reserved registers
are always in use; any other register is in use exactly when some slot holds it,
and `counts` tells how many do.  `Layout.problem?` says what breaks this, if
anything does.
-/

/-!
## Slots

Where the compiler keeps the value of one local or operand: in the frame slot with
the same index, in a register, or as a constant that is not materialised yet.
-/

namespace WasmX64

/-- Where a value lives.  `unknown` is a place that no operation recognises. -/
inductive Place where
  /-- In the frame slot with the index of the value. -/
  | frame
  | reg (reg : Register)
  /-- A 32-bit constant, sign-extended for i64. -/
  | const (value : Int32)
  | unknown (code : UInt8)
deriving DecidableEq, Repr, Inhabited

def Place.nameOfCode (code : UInt8) : String :=
  ["stack", "reg", "const"][code.toNat]?.getD s!"Location({code.toNat})"

structure Slot where
  type : ValueType
  place : Place
deriving DecidableEq, Repr, Inhabited

namespace Slot

def inFrame (type : ValueType) : Slot := ⟨type, .frame⟩

def inReg (type : ValueType) (reg : Register) : Slot := ⟨type, .reg reg⟩

def ofConst (type : ValueType) (value : Int32) : Slot := ⟨type, .const value⟩

def reg? (slot : Slot) : Option Register :=
  match slot.place with
  | .reg reg => some reg
  | _ => none

def text (slot : Slot) : String :=
  slot.type.name ++ ":" ++
    match slot.place with
    | .reg reg => reg.name
    | .const value => s!"#{value.toInt}"
    | _ => "stack"

def constBits (type : ValueType) (value : Int32) : UInt64 :=
  if type = .i64 then value.toInt64.toUInt64 else value.toUInt32.toUInt64

end Slot

/-!
## Layouts

Slots with the registers they occupy.
-/

structure Layout where
  slots : Array Slot := #[]
  /-- The height the operands of the enclosing block start at. -/
  base : Int := 0
  used : RegSet := RegSet.reserved
  /-- How many slots hold each register.  No count passes the number of slots, so counters of 32
  bits hold the same below 2 ^ 32 slots. -/
  counts : Vector Nat 32 := Vector.replicate 32 0
  /-- The registers spilled last, which are spared next time. -/
  lastSpilled : RegSet := RegSet.empty
deriving DecidableEq, Repr, Inhabited

namespace Layout

/-- A layout that has been moved away: nothing is in use, not even the reserved
registers. -/
def vacated : Layout := { used := RegSet.empty }

def height (layout : Layout) : Nat := layout.slots.size

def count (layout : Layout) (reg : Register) : Nat :=
  layout.counts.toArray[reg.code.toNat]?.getD 0

def setCount (layout : Layout) (reg : Register) (count : Nat) : Layout :=
  { layout with counts := layout.counts.setIfInBounds reg.code.toNat count }

def retain (layout : Layout) (reg : Register) : Layout :=
  let layout := layout.setCount reg (layout.count reg + 1)
  { layout with used := layout.used.insert reg }

/-- One slot less holds a register; the last one frees it. -/
def release (layout : Layout) (reg : Register) : Layout :=
  if layout.count reg = 0 then layout
  else
    let layout := layout.setCount reg (layout.count reg - 1)
    if layout.count reg = 0 then { layout with used := layout.used.erase reg } else layout

def forget (layout : Layout) (reg : Register) : Layout :=
  let layout := layout.setCount reg 0
  { layout with used := layout.used.erase reg }

def forgetAll (layout : Layout) : Layout :=
  { layout with used := RegSet.reserved, counts := Vector.replicate 32 0 }

/-- A register that can be handed out without spilling. -/
def isFree (layout : Layout) (reg : Register) : Bool :=
  reg.isMachine && !layout.used.has reg

def unused (layout : Layout) (bank : RegClass) (pinned : RegSet) : RegSet :=
  ((RegSet.ofClass bank).diff layout.used).diff pinned

def push (layout : Layout) (slot : Slot) : Layout :=
  let layout :=
    match slot.place with
    | .reg reg => layout.retain reg
    | _ => layout
  { layout with slots := layout.slots.push slot }

def top? (layout : Layout) : Option Slot := layout.slots.back?

/-- The layout without the slot on top, whose register stays counted. -/
def pop (layout : Layout) : Layout :=
  { layout with slots := layout.slots.pop }

/-- The layout without the slot on top and its claim on a register. -/
def drop (layout : Layout) : Layout :=
  match layout.top? with
  | some ⟨_, .reg reg⟩ => layout.pop.release reg
  | _ => layout.pop

/-- Drops slots until at most `height` are left, given at least as much fuel as
there are slots. -/
def dropTo (height : Nat) : Nat → Layout → Layout
  | 0, layout => layout
  | fuel + 1, layout => if height < layout.height then dropTo height fuel layout.drop else layout

def truncate (layout : Layout) (height : Nat) : Layout :=
  dropTo height layout.height layout

/-- The slot `depth` places below the top. -/
def peek? (layout : Layout) (depth : Int) : Option Slot :=
  let index : Int := layout.height - 1 - depth
  if 0 ≤ index then layout.slots[index.toNat]? else none

def slot? (layout : Layout) (index : Int) : Option Slot :=
  if 0 ≤ index then layout.slots[index.toNat]? else none

/-- Replaces the slot at an index and leaves the counts alone. -/
def setSlot (layout : Layout) (index : Nat) (slot : Slot) : Layout :=
  { layout with slots := layout.slots.setIfInBounds index slot }

inductive Problem where
  | reservedRegister (index : Nat) (reg : Register)
  | wrongBank (index : Nat) (type : ValueType) (reg : Register)
  | reservedFree (reg : Register)
  | wrongCount (reg : Register) (found recorded : Nat)
  | wrongUse (reg : Register) (count : Nat) (used : RegSet)
deriving DecidableEq, Repr

def Problem.message : Problem → String
  | .reservedRegister index reg => s!"slot {index} holds reserved register {reg.name}"
  | .wrongBank index type reg => s!"slot {index} of type {type.name} in register {reg.name}"
  | .reservedFree reg => s!"reserved register {reg.name} not marked used"
  | .wrongCount reg found recorded =>
    s!"register {reg.name} referenced {found} times, use count {recorded}"
  | .wrongUse reg count used =>
    s!"register {reg.name} use count {count} disagrees with used set {used.text}"

def holders (slots : List Slot) (reg : Register) : Nat :=
  slots.countP fun slot => slot.place = .reg reg

def slotProblem? (index : Nat) (slot : Slot) : Option Problem :=
  match slot.place with
  | .reg reg =>
    if !reg.isMachine || RegSet.reserved.has reg then some (.reservedRegister index reg)
    else if reg.regClass ≠ slot.type.regClass then some (.wrongBank index slot.type reg)
    else none
  | _ => none

def slotsProblem? (index : Nat) : List Slot → Option Problem
  | [] => none
  | slot :: rest =>
    match slotProblem? index slot with
    | some problem => some problem
    | none => slotsProblem? (index + 1) rest

def registerProblem? (layout : Layout) (reg : Register) : Option Problem :=
  let found := holders layout.slots.toList reg
  if RegSet.reserved.has reg then
    if layout.used.has reg then none else some (.reservedFree reg)
  else if found ≠ layout.count reg then some (.wrongCount reg found (layout.count reg))
  else if (found ≠ 0) ≠ layout.used.has reg then some (.wrongUse reg found layout.used)
  else none

def problem? (layout : Layout) : Option Problem :=
  match slotsProblem? 0 layout.slots.toList with
  | some problem => some problem
  | none => Register.all.findSome? layout.registerProblem?

/-- The slots with a mark before the operands of the enclosing block. -/
def slotTexts (base : Int) (index : Nat) : List Slot → List String
  | [] => []
  | slot :: rest =>
    ((if (index : Int) = base ∧ index ≠ 0 then "| " else "") ++ slot.text) ::
      slotTexts base (index + 1) rest

def text (layout : Layout) : String :=
  "[" ++ " ".intercalate (slotTexts layout.base 0 layout.slots.toList) ++ "]"

end Layout

end WasmX64
