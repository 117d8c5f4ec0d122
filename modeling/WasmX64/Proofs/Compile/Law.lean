import WasmX64.Proofs.Compile.Ceiling
import WasmX64.Proofs.Wasm.Canonical

/-!
# Laws of the compiler

Every action of the compiler is put together from a few primitives: it emits code, loads
references, makes labels, keeps its books, moves one layout into another and records what it
does.  A law that these primitives obey, and that goes through from one action to the next, is
obeyed by every action.  An action is told by what it may record, and nothing that is recorded
is ever looked at.  Apart from the function it compiles, what the compiler reads of a module is
what the module declares.
-/

namespace WasmX64

def Global.declaration (global : Global) : ValueType × Bool := (global.type, global.isMutable)

/-- Two modules declare the same.  They may differ in names, locals and bodies of functions, in
the table, the exports and the initial values of globals, and in whether the canonical types
are tabulated. -/
structure Module.Alike (first second : Module) : Prop where
  types : first.types = second.types
  functions : first.functions.map Function.type = second.functions.map Function.type
  globals : first.globals.map Global.declaration = second.globals.map Global.declaration
  memory : first.memory = second.memory

namespace Module.Alike

variable {first second : Module} (alike : first.Alike second)

include alike

theorem typeAt : first.typeAt = second.typeAt := by
  funext index
  unfold Module.typeAt
  rw [alike.types]

theorem functions_size : first.functions.size = second.functions.size := by
  simpa using congrArg Array.size alike.functions

theorem functions_at (index : Nat) :
    first.functions[index]?.map Function.type = second.functions[index]?.map Function.type := by
  simpa using congrArg (·[index]?) alike.functions

theorem functionType : first.functionType = second.functionType := by
  funext index
  have types := alike.functions_at index.toNat
  unfold Module.functionType
  cases left : first.functions[index.toNat]? with
  | none =>
    cases right : second.functions[index.toNat]? with
    | none => rw [alike.functions_size]
    | some function => simp [left, right] at types
  | some function =>
    cases right : second.functions[index.toNat]? with
    | none => simp [left, right] at types
    | some other =>
      simp only [left, right, Option.map_some, Option.some.injEq] at types
      dsimp only
      rw [alike.typeAt, types]

theorem canonicalType : first.canonicalType = second.canonicalType :=
  Module.canonicalType_congr alike.types

theorem globals_size : first.globals.size = second.globals.size := by
  simpa using congrArg Array.size alike.globals

theorem globals_at (index : Nat) :
    first.globals[index]?.map Global.declaration =
      second.globals[index]?.map Global.declaration := by
  simpa using congrArg (·[index]?) alike.globals

end Module.Alike

/-- The reference is to something that a module has.  Globals and functions are told apart by
their index; the memory, the table and what belongs to an instance are there in any case. -/
def Module.Names (module : Module) (kind : RefKind) (index : UInt32) : Prop :=
  match kind with
  | .global => index.toNat < module.globals.size
  | .func => index.toNat < module.functions.size
  | .unknown _ => False
  | _ => True

/-- References of this kind do not tell objects apart. -/
def RefKind.isLone : RefKind → Bool
  | .global | .func | .unknown _ => false
  | _ => true

theorem Module.names_lone {module : Module} {kind : RefKind} {index : UInt32}
    (lone : kind.isLone = true) : module.Names kind index := by
  cases kind with
  | global => cases lone
  | func => cases lone
  | unknown code => cases lone
  | _ => trivial

theorem Module.functionType_lt {module : Module} {index : UInt32} {type : FuncType}
    (found : module.functionType index = .ok type) : index.toNat < module.functions.size := by
  unfold functionType at found
  split at found
  · rename_i function has
    exact (Array.getElem?_eq_some_iff.mp has).1
  · cases found

/-- Two compilations of one function in modules that declare the same.  The name of the function
may differ. -/
structure Subject.Alike (first second : Subject) : Prop where
  module : first.module.Alike second.module
  host : first.host = second.host
  index : first.index = second.index
  functionLocals : first.function.locals = second.function.locals
  body : first.function.body = second.function.body
  type : first.type = second.type
  signature : first.signature = second.signature
  locals : first.locals = second.locals

/-- What an action may record. -/
inductive Recording where
  | nothing
  /-- Machine-level constructs, each with nothing recorded inside. -/
  | machine
  /-- Starts and ends of blocks as well. -/
  | blocks
deriving DecidableEq

theorem Recording.blocks_loud : Recording.blocks ≠ .nothing := by decide

/-- The start or the end of a block. -/
def Happening.isBlock : Happening → Bool
  | .controlStart _ | .controlEnd _ => true
  | _ => false

/-- Two states in which one instruction is lowered, with the same code, references, events and
entries of the source map.  Stubs may have been added, for given faults of the instruction. -/
structure Compilation.Silent (faults : TrapKind → Prop) (before after : Compilation) : Prop where
  code : after.output.code = before.output.code
  refs : after.refs = before.refs
  instr : after.instr = before.instr
  op : after.op = before.op
  events : after.events = before.events
  sources : after.sources = before.sources
  stubs : ∃ added, after.stubs.toList = before.stubs.toList ++ added ∧
    ∀ stub ∈ added, stub.instr = before.instr ∧ faults stub.kind

theorem Compilation.Silent.same {faults : TrapKind → Prop} {before after : Compilation}
    (same : (after.output.code, after.refs, after.instr, after.op, after.events, after.sources,
      after.stubs) = (before.output.code, before.refs, before.instr, before.op, before.events,
      before.sources, before.stubs)) : before.Silent faults after := by
  simp only [Prod.mk.injEq] at same
  obtain ⟨code, refs, instr, op, events, sources, stubs⟩ := same
  exact ⟨code, refs, instr, op, events, sources, [], by simp [stubs], by simp⟩

/-- The event that is recorded in a state. -/
def Compilation.event (subject : Subject) (state : Compilation) (what : Happening) : Event :=
  { func := subject.index, instr := state.instr, op := state.op
    depth := state.blocks.length, offset := state.output.code.size, what }

namespace Compile

open Sequence

/-- Leaves room for the size of the frame in the code. -/
def openFrame : Compile Nat :=
  modifyGet fun state =>
    let (offset, code) := state.output.code.openFrame
    (offset, { state with output := { state.output with code } })

/-- Fills in the size of the frame. -/
def setFrame (frame : Nat) : Compile Unit :=
  modify fun state =>
    { state with
      output := { state.output with
        code := state.output.code.setFrame frame state.output.frameSlots } }

/-- A property of actions that lead from below one ceiling to below another, for each kind of
recording, that is kept by composition and holds where nothing changes.  If it is not `tight` it
does not know of ceilings. -/
class Plain (law : ∀ ⦃α : Type⦄, Recording → Nat → Nat → Compile α → Prop)
    (tight : outParam Prop) : Prop where
  pure : ∀ {α : Type} {recording : Recording} {low : Nat} (value : α),
    law recording low low (pure value)
  throw : ∀ {α : Type} {recording : Recording} {low high : Nat} (fault : Fault),
    law recording low high (throw fault : Compile α)
  bind : ∀ {α β : Type} {recording : Recording} {low middle high : Nat} {action : Compile α}
    {next : α → Compile β}, law recording low middle action →
    (∀ value, law recording middle high (next value)) → law recording low high (action >>= next)
  mono : ∀ {α : Type} {recording : Recording} {low middle high : Nat} {action : Compile α},
    law recording low middle action → (tight → middle ≤ high) → law recording low high action
  /-- The state is read, but no events. -/
  look : ∀ {β : Type} {recording : Recording} {low high : Nat} {next : Compilation → Compile β},
    (∀ state : Compilation, (tight → state.Under low) → law recording low high (next state)) →
    (∀ (state : Compilation) (events : Array Event), next { state with events } = next state) →
      law recording low high (get >>= next)
  /-- The subject is read, but nothing that modules do not declare. -/
  ask : ∀ {β : Type} {recording : Recording} {low high : Nat} {next : Subject → Compile β},
    (∀ subject, law recording low high (next subject)) →
    (∀ first second : Subject, first.Alike second → next first = next second) →
      law recording low high (read >>= next)

/-- A plain property that holds of straight code, frame slots, changes of the layout and transfers
as well. -/
class Mild (law : ∀ ⦃α : Type⦄, Recording → Nat → Nat → Compile α → Prop)
    (tight : outParam Prop) : Prop extends Plain law tight where
  straight : ∀ {recording : Recording} {low : Nat} {steps : List Step}, Straight steps →
    law recording low low (emit steps)
  /-- The slot is one of a layout below the ceiling, or one above that moves may need. -/
  needSlot : ∀ {recording : Recording} {low : Nat} {index : Int}, (tight → index < low + 33) →
    law recording low low (needSlot index)
  /-- The layout changes, and the ceiling may rise. -/
  relay : ∀ {recording : Recording} {low high : Nat} {change : Layout → Layout},
    (tight → ∀ layout : Layout, layout.height ≤ low → (change layout).height ≤ high) →
    low ≤ high → law recording low high (modifyLayout change)
  transfer : ∀ {recording : Recording} {low : Nat} {source : Layout} {action : TransferM Unit},
    (tight → source.height ≤ low) → action.Within tight (low + 33) →
      law recording low low (transfer source action)

/-- A mild property that holds of the other primitives as well.  The references that are loaded
and the faults that stubs report are among given ones. -/
class Law (law : ∀ ⦃α : Type⦄, Recording → Nat → Nat → Compile α → Prop)
    (names : outParam (RefKind → UInt32 → Prop)) (faults : outParam (TrapKind → Prop))
    (tight : outParam Prop) : Prop extends Mild law tight where
  /-- What the module has may be referred to. -/
  askNames : ∀ {β : Type} {recording : Recording} {low high : Nat} {next : Subject → Compile β},
    (∀ subject, (∀ kind index, subject.module.Names kind index → names kind index) →
      law recording low high (next subject)) →
    (∀ first second : Subject, first.Alike second → next first = next second) →
      law recording low high (read >>= next)
  emit : ∀ {recording : Recording} {low : Nat} (steps : List Step),
    law recording low low (emit steps)
  lone : ∀ {kind : RefKind} (index : UInt32), kind.isLone = true → names kind index
  loadRef : ∀ {recording : Recording} {low : Nat} (target : Register) {kind : RefKind}
    {index : UInt32}, names kind index → law recording low low (loadRef target kind index)
  newLabel : ∀ {recording : Recording} {low : Nat}, law recording low low newLabel
  note : ∀ {recording : Recording} {low high : Nat} {change : Compilation → Compilation},
    (∀ state : Compilation, state.Silent faults (change state)) →
    (∀ (state : Compilation) (events : Array Event),
      change { state with events } = { change state with events }) →
    (tight → ∀ state : Compilation, state.Under low → (change state).Under high) →
      law recording low high (modify change)
  machine : ∀ {recording : Recording} {low high : Nat} (event : MachineEvent)
    {action : Compile Unit}, recording ≠ .nothing → law .nothing low high action →
      law recording low high (machine event action)
  block : ∀ {low : Nat} {what : Happening}, what.isBlock = true →
    law .blocks low low (record what)
  ask each same := askNames (fun subject _ => each subject) same
  straight _ := emit _
  needSlot inside := note (fun state => .same (by rw [state.output.code_needSlot]))
    (fun _ _ => rfl) fun tight _ under => under.slot (inside tight)
  relay lower rises := note (fun _ => .same rfl) (fun _ _ => rfl)
    fun tight _ under => (under.mono rises).layout (lower tight _ under.height)

/-- A law that does not know of ceilings. -/
def Unbounded (law : ∀ ⦃α : Type⦄, Recording → Compile α → Prop) ⦃α : Type⦄
    (recording : Recording) (_ _ : Nat) (action : Compile α) : Prop :=
  law recording action

/-- A law that the frame of a function obeys as well. -/
class Framed (law : ∀ ⦃α : Type⦄, Recording → Compile α → Prop)
    (names : outParam (RefKind → UInt32 → Prop)) : Prop
    extends Law (Unbounded law) names (fun _ => True) False where
  openFrame : ∀ {recording : Recording}, law recording openFrame
  setFrame : ∀ {recording : Recording} (frame : Nat), law recording (setFrame frame)

/-- An action obeys a law between two ceilings. -/
def Obeys (law : ∀ ⦃α : Type⦄, Recording → Nat → Nat → Compile α → Prop) {α : Type}
    (recording : Recording) (low high : Nat) (action : Compile α) : Prop :=
  law recording low high action

namespace Obeys

variable {law : ∀ ⦃α : Type⦄, Recording → Nat → Nat → Compile α → Prop}
  {names : RefKind → UInt32 → Prop} {faults : TrapKind → Prop} {tight : Prop}
  {recording : Recording} {α β : Type} {low middle high : Nat}

theorem ite {condition : Prop} [Decidable condition] {yes no : Compile α}
    (first : Obeys law recording low high yes) (second : Obeys law recording low high no) :
    Obeys law recording low high (if condition then yes else no) := by
  split
  · exact first
  · exact second

section Plain

variable [plain : Plain law tight]

include plain

theorem pure {value : α} : Obeys law recording low low (pure value) := plain.pure value

theorem throw {fault : Fault} : Obeys law recording low high (throw fault : Compile α) :=
  plain.throw fault

theorem andThen {action : Compile α} {next : α → Compile β}
    (first : Obeys law recording low middle action)
    (second : ∀ value, Obeys law recording middle high (next value)) :
    Obeys law recording low high (action >>= next) :=
  plain.bind first second

theorem mono {action : Compile α} (obeys : Obeys law recording low middle action)
    (lower : tight → middle ≤ high) : Obeys law recording low high action :=
  plain.mono obeys lower

theorem up {action : Compile α} (obeys : Obeys law recording low low action) :
    Obeys law recording low (low + 1) action :=
  obeys.mono fun _ => Nat.le_succ low

theorem fails {fault : Fault} {next : α → Compile β} :
    Obeys law recording low high (MonadExcept.throw fault >>= next) :=
  plain.throw fault

omit plain in
theorem given {value : α} {next : α → Compile β}
    (rest : Obeys law recording low high (next value)) :
    Obeys law recording low high (Pure.pure value >>= next) := by
  rw [pure_bind]
  exact rest

theorem look {next : Compilation → Compile β}
    (blind : ∀ (state : Compilation) (events : Array Event),
      next { state with events } = next state)
    (each : ∀ state : Compilation, (tight → state.Under low) →
      Obeys law recording low high (next state)) :
    Obeys law recording low high (get >>= next) :=
  plain.look each blind

theorem ask {next : Subject → Compile β}
    (each : ∀ subject, Obeys law recording low high (next subject))
    (same : ∀ first second : Subject, first.Alike second → next first = next second) :
    Obeys law recording low high (read >>= next) :=
  plain.ask each same

theorem map {action : Compile α} {change : α → β} (obeys : Obeys law recording low high action) :
    Obeys law recording low high (change <$> action) := by
  rw [map_eq_pure_bind]
  exact obeys.andThen fun _ => pure

/-- A test that may end the compilation. -/
theorem check {condition : Prop} [Decidable condition] {fault : Fault} {next : Compile α}
    (rest : ¬ condition → Obeys law recording low high next) :
    Obeys law recording low high (do
      if condition then MonadExcept.throw fault
      next) := by
  split
  · exact fails
  · rename_i holds
    exact rest holds

theorem demand {condition : Prop} [Decidable condition] {fault : Fault} {next : Compile α}
    (rest : Obeys law recording low high next) :
    Obeys law recording low high (do
      if condition then MonadExcept.throw fault
      next) :=
  check fun _ => rest

/-- Something is done only under a condition. -/
theorem optional {condition : Prop} [Decidable condition] {action : Compile Unit}
    {next : Compile α} (first : Obeys law recording low low action)
    (rest : Obeys law recording low high next) :
    Obeys law recording low high (do
      if condition then action
      next) :=
  ite (first.andThen fun _ => rest) rest

theorem forIn {list : List α} {body : α → PUnit → Compile (ForInStep PUnit)}
    (round : ∀ value, Obeys law recording low low (body value PUnit.unit)) :
    Obeys law recording low low (ForIn.forIn list PUnit.unit body) := by
  induction list with
  | nil => exact pure
  | cons value rest ih =>
    rw [List.forIn_cons]
    refine (round value).andThen fun step => ?_
    cases step with
    | done last => exact pure
    | yield last => exact ih

theorem mapM {change : α → Compile β} (each : ∀ value, Obeys law recording low low (change value))
    (list : List α) : Obeys law recording low low (list.mapM change) := by
  induction list with
  | nil => exact pure
  | cons value rest ih =>
    rw [List.mapM_cons]
    exact (each value).andThen fun _ => ih.andThen fun _ => pure

theorem innermost : Obeys law recording low low innermost := by
  refine look (fun _ _ => rfl) fun state _ => ?_
  split
  · exact pure
  · exact throw

theorem atInnermost {next : Block → Compile α}
    (rest : ∀ block : Block, (tight → block.Under low) → Obeys law recording low high (next block)) :
    Obeys law recording low high (Compile.innermost >>= next) := by
  unfold Compile.innermost
  rw [bind_assoc]
  refine look (fun _ _ => rfl) fun state under => ?_
  split
  · rename_i block outer opened
    exact given (rest block fun tight =>
      (under tight).blocks block (opened ▸ List.mem_cons_self))
  · exact fails

theorem blockAt (depth : Nat) : Obeys law recording low low (blockAt depth) := by
  refine look (fun _ _ => rfl) fun state _ => ?_
  split
  · exact pure
  · exact throw

theorem target (depth : Nat) : Obeys law recording low low (target depth) := by
  refine look (fun _ _ => rfl) fun state _ => ?_
  dsimp only
  split
  · exact pure
  · exact throw

theorem atTarget (depth : Nat) {next : Block → Compile α}
    (rest : ∀ block : Block, (tight → block.Under low) → Obeys law recording low high (next block)) :
    Obeys law recording low high (Compile.target depth >>= next) := by
  unfold Compile.target
  rw [bind_assoc]
  refine look (fun _ _ => rfl) fun state under => ?_
  dsimp only
  split
  · rename_i block found
    exact given (rest block fun tight => (under tight).blocks block (List.mem_of_getElem? found))
  · exact fails

theorem leavesFunction (depth : Nat) : Obeys law recording low low (leavesFunction depth) :=
  look (fun _ _ => rfl) fun _ _ => pure

theorem operandType (depth : Nat) : Obeys law recording low low (operandType depth) := by
  refine look (fun _ _ => rfl) fun state _ => innermost.andThen fun block => demand ?_
  split
  · exact pure
  · exact throw

theorem expect (depth : Nat) (type : ValueType) :
    Obeys law recording low low (expect depth type) :=
  (operandType depth).andThen fun _ => ite throw pure

theorem localSlot (index : UInt32) : Obeys law recording low low (localSlot index) := by
  refine ask (fun subject => demand (look (fun _ _ => rfl) fun state _ => ?_)) ?_
  · split
    · exact pure
    · exact throw
  · intro first second alike
    simp only [alike.locals]

theorem demandArguments (types : List ValueType) :
    Obeys law recording low low (demandArguments types) := by
  induction types with
  | nil => exact pure
  | cons type rest ih => exact (expect _ _).andThen fun _ => ih

theorem calleeSignature (type : FuncType) :
    Obeys law recording low low (calleeSignature type) := demand pure

theorem demandTargets (wanted : Nat) (targets : List UInt32) :
    Obeys law recording low low (demandTargets wanted targets) := by
  induction targets with
  | nil => exact pure
  | cons depth rest ih => exact (target _).andThen fun _ => demand ih

theorem demandMemory : Obeys law recording low low demandMemory := by
  refine ask (fun _ => ite (look (fun _ _ => rfl) fun _ _ => throw) pure) ?_
  intro first second alike
  rw [alike.module.memory]

theorem demandEndHeight (block : Block) : Obeys law recording low low (demandEndHeight block) :=
  look (fun _ _ => rfl) fun _ _ => ite throw pure

theorem initJoin (join source : Layout) (arity : Int) :
    Obeys law recording low low (initJoin join source arity) := by
  refine ask (fun subject => ?_) fun first second alike => by rw [alike.locals]
  split
  · exact pure
  · exact throw

theorem atJoin {join source : Layout} {arity : Int} (lower : tight → source.height ≤ low)
    {next : Layout → Compile α}
    (rest : ∀ laid : Layout, (tight → laid.height ≤ low) →
      Obeys law recording low high (next laid)) :
    Obeys law recording low high (Compile.initJoin join source arity >>= next) := by
  unfold Compile.initJoin
  rw [bind_assoc]
  refine ask (fun subject => ?_) fun first second alike => by rw [alike.locals]
  split
  · rename_i laid runs
    exact given (rest laid fun tight => Nat.le_trans (Layout.height_initJoin runs) (lower tight))
  · exact fails

end Plain

section Mild

variable [mild : Mild law tight]

include mild

theorem straight {steps : List Step} (straight : Straight steps) :
    Obeys law recording low low (Compile.emit steps) :=
  mild.straight straight

/-- The slot is one of a layout below the ceiling, or one above that moves may need. -/
theorem needSlot {index : Int} (inside : tight → index < low + 33) :
    Obeys law recording low low (needSlot index) :=
  mild.needSlot inside

/-- The layout changes, and the ceiling may rise. -/
theorem relay {change : Layout → Layout}
    (lower : tight → ∀ layout : Layout, layout.height ≤ low → (change layout).height ≤ high)
    (rises : low ≤ high) : Obeys law recording low high (modifyLayout change) :=
  mild.relay lower rises

theorem modifyLayout {change : Layout → Layout}
    (lower : ∀ layout, (change layout).height ≤ layout.height) :
    Obeys law recording low low (modifyLayout change) :=
  relay (fun _ layout => Nat.le_trans (lower layout)) (Nat.le_refl low)

/-- The layout is replaced by one below the ceiling. -/
theorem relayout {layout : Layout} (lower : tight → layout.height ≤ low) :
    Obeys law recording low low (Compile.modifyLayout fun _ => layout) :=
  relay (fun tight _ _ => lower tight) (Nat.le_refl low)

theorem push (slot : Slot) :
    Obeys law recording low (low + 1) (Compile.modifyLayout (·.push slot)) := by
  refine relay (fun _ layout below => ?_) (Nat.le_succ low)
  rw [Layout.height_push]
  exact Nat.succ_le_succ below

theorem setSlot (index : Nat) (slot : Slot) :
    Obeys law recording low low (Compile.modifyLayout (·.setSlot index slot)) :=
  modifyLayout fun _ => Nat.le_of_eq (Layout.height_setSlot ..)

theorem release (reg : Register) :
    Obeys law recording low low (Compile.modifyLayout (·.release reg)) :=
  modifyLayout fun layout => Nat.le_of_eq (layout.height_release reg)

theorem pop : Obeys law recording low low (Compile.modifyLayout Layout.pop) :=
  modifyLayout fun layout => by simp [Layout.pop, Layout.height]

theorem drop : Obeys law recording low low (Compile.modifyLayout Layout.drop) := by
  apply modifyLayout
  intro layout
  rw [Layout.height_drop]
  exact Nat.sub_le ..

theorem transfer {source : Layout} {action : TransferM Unit} (lower : tight → source.height ≤ low)
    (within : action.Within tight (low + 33)) :
    Obeys law recording low low (transfer source action) :=
  mild.transfer lower within

theorem mergeAll {join source : Layout} (lower : tight → source.height ≤ low) :
    Obeys law recording low low (mergeAll join source) := by
  refine demand (transfer lower (.merge fun tight => ?_))
  have := lower tight
  omega

theorem mergeBranch {join source : Layout} {arity : Int} (lower : tight → source.height ≤ low) :
    Obeys law recording low low (mergeBranch join source arity) := by
  refine check fun enough => transfer lower (.branch _ _ _ _ _ fun tight => ?_)
  have := lower tight
  omega

theorem needFound {layout : Layout} {index : Int} {slot : Slot}
    (found : layout.slot? index = some slot) (lower : tight → layout.height ≤ low) :
    Obeys law recording low low (Compile.needSlot index) := by
  refine needSlot fun tight => ?_
  have inside := Layout.slot?_inside found
  have below := lower tight
  omega

theorem spillHolders (reg : Register) (index remaining : Nat) :
    Obeys law recording low low (spillHolders reg index remaining) := by
  induction index generalizing remaining with
  | zero => exact pure
  | succ index ih =>
    rw [Compile.spillHolders]
    refine ite pure (look (fun _ _ => rfl) fun state under => ?_)
    split
    · rename_i slot found
      refine ite ((straight (straight_spill _ _ _)).andThen fun _ => ?_) (ih _)
      refine (needFound found fun tight => (under tight).height).andThen fun _ => ?_
      exact (setSlot _ _).andThen fun _ => ih _
    · exact ih _

theorem spillRegister (reg : Register) : Obeys law recording low low (spillRegister reg) := by
  refine demand (look (fun _ _ => rfl) fun state _ => ?_)
  refine (spillHolders _ _ _).andThen fun remaining => ?_
  exact demand (modifyLayout fun _ => Nat.le_refl _)

theorem spillOne (bank : RegClass) (pinned : RegSet) :
    Obeys law recording low low (spillOne bank pinned) := by
  refine look (fun _ _ => rfl) fun state _ => demand ?_
  refine (modifyLayout (by intro _; exact Nat.le_refl _)).andThen fun _ => ?_
  exact (spillRegister _).andThen fun _ => pure

theorem takeRegister (bank : RegClass) (wishes : List Register) (pinned : RegSet) :
    Obeys law recording low low (takeRegister bank wishes pinned) := by
  refine look (fun _ _ => rfl) fun state _ => ?_
  dsimp only
  split
  · exact pure
  · split
    · exact pure
    · exact spillOne _ _

theorem spillSlot (index : Int) : Obeys law recording low low (spillSlot index) := by
  refine look (fun _ _ => rfl) fun state under => ?_
  split
  · exact throw
  · rename_i slot found
    have needs : Obeys law recording low low (Compile.needSlot index) :=
      needFound found fun tight => (under tight).height
    split
    · refine (straight (straight_spill _ _ _)).andThen fun _ => (release _).andThen fun _ => ?_
      exact needs.andThen fun _ => setSlot _ _
    · exact (straight (straight_spillConstant _ _ _)).andThen fun _ => needs.andThen fun _ => setSlot _ _
    · exact pure

theorem spillLocals : Obeys law recording low low spillLocals := by
  refine ask (fun subject => andThen (forIn fun index => ?_) fun _ => pure) ?_
  · exact (spillSlot _).andThen fun _ => pure
  · intro first second alike
    simp only [alike.locals]

theorem materialize (reg : Register) (slot : Slot) (index : Int) :
    Obeys law recording low low (materialize reg slot index) := by
  unfold Compile.materialize
  split
  · exact straight (straight_loadFrom _ _ _)
  · exact straight (straight_loadConstant _ _ _)
  · exact straight (straight_move _ _ _)
  · exact pure

theorem popSlot : Obeys law recording low low popSlot := by
  refine look (fun _ _ => rfl) fun state _ => innermost.andThen fun block => demand ?_
  split
  · exact pop.andThen fun _ => pure
  · exact throw

theorem popRegister (pinned : RegSet) : Obeys law recording low low (popRegister pinned) := by
  refine popSlot.andThen fun slot => ?_
  split
  · exact (release _).andThen fun _ => pure
  · refine (takeRegister _ _ _).andThen fun reg => look (fun _ _ => rfl) fun state _ => ?_
    exact (materialize _ _ _).andThen fun _ => pure

theorem dropOperand : Obeys law recording low low dropOperand := by
  refine popSlot.andThen fun slot => ?_
  split
  · exact release _
  · exact pure

theorem vacate (reg : Register) : Obeys law recording low low (vacate reg) :=
  look (fun _ _ => rfl) fun _ _ => ite (spillRegister _) pure

theorem resetToResults {block : Block} (below : tight → block.Under low) :
    Obeys law recording low (low + 1) (resetToResults block) := by
  have pushes : ∀ (types : List ValueType) (low : Nat),
      Obeys law recording low (low + types.length) (ForIn.forIn types PUnit.unit fun type _ => do
        Compile.needSlot (← MonadState.get).layout.height
        Compile.modifyLayout (·.push (.inFrame type))
        Pure.pure (ForInStep.yield PUnit.unit)) := by
    intro types
    induction types with
    | nil => exact fun low => pure
    | cons type rest ih =>
      intro low
      rw [List.forIn_cons, List.length_cons, Nat.add_comm rest.length, ← Nat.add_assoc]
      refine andThen (?_ : Obeys law recording low (low + 1) _) fun step => ?_
      · refine look (fun _ _ => rfl) fun state under => ?_
        refine (needSlot fun tight => ?_).andThen fun _ => (push _).andThen fun _ => pure
        have tall := (under tight).height
        omega
      · cases step with
        | done last => exact pure.mono fun _ => Nat.le_add_right _ _
        | yield last => exact ih _
  refine andThen (modifyLayout fun layout => ?_) fun _ => ?_
  · rw [Layout.height_truncate]
    exact Nat.min_le_right ..
  · refine ((pushes block.results low).andThen fun _ => pure).mono fun tight => ?_
    have few := (below tight).results
    omega

theorem lowerLocalGet (index : UInt32) :
    Obeys law recording low (low + 1) (lowerLocalGet index) := by
  refine (localSlot _).andThen fun slot => ?_
  split
  · exact push _
  · exact push _
  · exact (takeRegister _ _ _).andThen fun _ => (straight (straight_loadFrom _ _ _)).andThen fun _ => push _
  · exact pure.up

theorem releaseLocal (index : Nat) : Obeys law recording low low (releaseLocal index) := by
  apply modifyLayout
  intro layout
  split
  · exact Nat.le_of_eq (layout.height_release _)
  · exact Nat.le_refl _

theorem setLocalFromFrame (index : Nat) (slot : Slot) :
    Obeys law recording low low (setLocalFromFrame index slot) := by
  refine look (fun _ _ => rfl) fun state _ => ?_
  dsimp only
  split
  · exact straight (straight_loadFrom _ _ _)
  · refine (releaseLocal _).andThen fun _ => (setSlot _ _).andThen fun _ => ?_
    refine (takeRegister _ _ _).andThen fun _ => (straight (straight_loadFrom _ _ _)).andThen fun _ => ?_
    exact modifyLayout fun layout => Nat.le_of_eq (Layout.height_setSlot ..)

theorem takeTop (index : Nat) (keep : Bool) (top slot : Slot) {rest : Compile Unit}
    (last : Obeys law recording low low rest) :
    Obeys law recording low low (do
      match top.place with
      | .reg reg =>
        Compile.releaseLocal index
        Compile.modifyLayout (·.setSlot index top)
        if keep then Compile.modifyLayout (·.retain reg)
      | .const _ =>
        Compile.releaseLocal index
        Compile.modifyLayout (·.setSlot index top)
      | .frame => Compile.setLocalFromFrame index slot
      | .unknown _ => Pure.pure ()
      rest) := by
  dsimp only
  split
  · refine (releaseLocal _).andThen fun _ => (setSlot _ _).andThen fun _ => ?_
    exact optional (modifyLayout fun _ => Nat.le_refl _) last
  · exact (releaseLocal _).andThen fun _ => (setSlot _ _).andThen fun _ => last
  · exact (setLocalFromFrame _ _).andThen fun _ => last
  · exact last

theorem lowerLocalSet (index : UInt32) (keep : Bool) :
    Obeys law recording low low (lowerLocalSet index keep) := by
  refine (localSlot _).andThen fun slot => (expect _ _).andThen fun _ => ?_
  refine look (fun _ _ => rfl) fun state _ => ?_
  split
  · exact throw
  · exact takeTop _ _ _ _ (ite pop pure)

theorem placeParams (params : List Passing) :
    Obeys law recording low (low + params.length) (placeParams params) := by
  induction params generalizing low with
  | nil => exact pure
  | cons param rest ih =>
    rw [List.length_cons, Nat.add_comm rest.length, ← Nat.add_assoc]
    cases param with
    | reg type reg => exact (push _).andThen fun _ => ih
    | stack type offset =>
      refine (takeRegister _ _ _).andThen fun reg => (straight (straight_loadFrom _ _ _)).andThen fun _ => ?_
      exact (push _).andThen fun _ => ih

theorem placeLocals (zero : Option Register) (types : List ValueType) :
    Obeys law recording low (low + types.length) (placeLocals zero types) := by
  induction types generalizing low zero with
  | nil => exact pure
  | cons type rest ih =>
    rw [List.length_cons, Nat.add_comm rest.length, ← Nat.add_assoc, Compile.placeLocals]
    refine demand (ite (look (fun _ _ => rfl) fun state _ => ?_) ((push _).andThen fun _ => ih _))
    dsimp only
    have shares : ∀ reg : Register, Obeys law recording low (low + 1 + rest.length) (do
        pushRegister type reg
        Compile.placeLocals (some reg) rest) :=
      fun reg => (push _).andThen fun _ => ih _
    split
    · exact pure.andThen shares
    · refine (takeRegister _ _ _).andThen fun reg => (straight (straight_loadConstant _ _ _)).andThen fun _ => ?_
      exact pure.andThen shares

theorem storeBelow (count : Nat) : Obeys law recording low low (storeBelow count) := by
  refine andThen (forIn fun index => look (fun _ _ => rfl) fun state under => ?_) fun _ => pure
  split
  · rename_i type reg found
    refine (straight (straight_spill _ _ _)).andThen fun _ => ?_
    refine (needFound found fun tight => (under tight).height).andThen fun _ => ?_
    exact (setSlot _ _).andThen fun _ => pure
  · exact pure

theorem prepareCall (type : FuncType) (signature : Signature) (target : Register) :
    Obeys law recording low low (prepareCall type signature target) := by
  have passes : ∀ first : Nat, Obeys law recording low low (do
      let layout := (← MonadState.get).layout
      let arguments := signature.params.zip ((layout.slots.toList.drop first).zipIdx first)
      let free :=
        ((RegSet.ofClass .gp).diff signature.registers).diff RegSet.reserved
      let moves := target ≠ .absent ∧ signature.registers.has target
      let held := if moves then free.first else target
      Compile.transfer layout do
        passArguments arguments.reverse
        if moves then TransferM.moveRegister held target .i64
        TransferM.execute
      Compile.modifyLayout fun layout =>
        { layout.forgetAll with slots := layout.slots.extract 0 first }
      return held) := by
    intro first
    refine look (fun _ _ => rfl) fun state under =>
      (transfer (fun tight => (under tight).height) (.call _ _ _ _)).andThen fun _ => ?_
    refine andThen (modifyLayout fun layout => ?_) fun _ => pure
    change (layout.slots.extract 0 first).size ≤ layout.slots.size
    rw [Array.size_extract]
    omega
  refine innermost.andThen fun block => look (fun _ _ => rfl) fun state _ => demand ?_
  refine (demandArguments _).andThen fun _ => (storeBelow _).andThen fun _ => ?_
  exact optional (straight (straight_one (by rfl))) (passes _)

end Mild

end Obeys

end Compile

end WasmX64
