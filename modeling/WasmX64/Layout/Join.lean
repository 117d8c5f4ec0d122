import WasmX64.Layout.Action

/-!
# Join layouts

The layout of a point where several branches meet is fixed by the first of them.
Locals and the values a branch carries keep their registers where they can; the
operands in between also keep their constants and share registers the way the
source does.
-/

namespace WasmX64.Layout

structure RegionRule where
  keepFrame : Bool
  keepConst : Bool
  /-- Slots that share a register keep sharing one. -/
  share : Bool
deriving Repr

def demandSlot (layout : Layout) (index : Int) : LayoutM Slot :=
  match layout.slot? index with
  | some slot => pure slot
  | none => throw .missing

/-- The register a value gets in a join: its own if it is free, the one that stands
for its own, or any that the merge does not need. -/
def joinRegister? (join : Layout) (rule : RegionRule) (merged : RegSet)
    (shared : List (Register × Register)) (slot : Slot) : Option Register :=
  let own := slot.reg?.filter join.isFree
  let standIn := if rule.share then slot.reg?.bind (shared.lookup ·) else none
  (own.or standIn).or (join.unused slot.type.regClass merged).first?

/-- Lays out `count` slots from `joinIndex` after those of the source from
`sourceIndex`. -/
def joinRegion (rule : RegionRule) (merged : RegSet) (source : Layout) :
    Nat → Int → Int → List (Register × Register) → LayoutM Unit
  | 0, _, _, _ => pure ()
  | count + 1, joinIndex, sourceIndex, shared => do
    let slot ← demandSlot source sourceIndex
    let _ ← demandSlot (← get) joinIndex
    let next := joinRegion rule merged source count (joinIndex + 1) (sourceIndex + 1)
    let keeps :=
      match slot.place with
      | .frame => rule.keepFrame
      | .const _ => rule.keepConst
      | _ => false
    if keeps then
      modify (·.setSlot joinIndex.toNat slot)
      next shared
    else
      match joinRegister? (← get) rule merged shared slot with
      | none =>
        modify (·.setSlot joinIndex.toNat (.inFrame slot.type))
        next shared
      | some reg =>
        modify fun join => (join.retain reg).setSlot joinIndex.toNat (.inReg slot.type reg)
        match slot.reg? with
        | some own => next ((own, reg) :: shared)
        | none => next shared

/-- The registers of `count` slots from an index, added to a set. -/
def regionRegisters (source : Layout) : Nat → Int → RegSet → LayoutM RegSet
  | 0, _, set => pure set
  | count + 1, index, set => do
    let slot ← demandSlot source index
    regionRegisters source count (index + 1) (slot.reg?.elim set set.insert)

/-- Lays out an empty join for control that arrives with the source layout and
`arity` values on top. -/
def initJoin (locals : Nat) (source : Layout) (arity : Int) : LayoutM Unit := do
  let join ← get
  let base := join.base
  let height := base + arity
  let discarded := source.height - height
  if join.height ≠ 0 then throw (.broken .joinTwice)
  if discarded < 0 ∨ source.height < base then
    throw (.malformed (.branchValues arity (source.height - base)))
  if height < 0 then throw .missing
  modify ({ · with slots := Array.replicate height.toNat ⟨.unknown 0, .frame⟩ })
  let carried := base + discarded
  let merged ← regionRegisters source locals 0 RegSet.reserved
  let merged ← regionRegisters source arity.toNat carried merged
  joinRegion ⟨discarded = 0, false, false⟩ merged source arity.toNat base carried []
  joinRegion ⟨true, false, false⟩ merged source locals 0 0 []
  let used := (← get).used
  if !merged.subset used then throw (.broken (.mergeRegisters merged used))
  joinRegion ⟨true, true, true⟩ merged source (base - locals).toNat locals locals []

end WasmX64.Layout
