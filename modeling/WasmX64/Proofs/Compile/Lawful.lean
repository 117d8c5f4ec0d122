import WasmX64.Proofs.Compile.Law

/-!
# What obeys the laws of the compiler

A law that the primitives obey is obeyed by the code for every instruction, by one round of the
driver, and by what is done before the first round and behind the last.
-/

namespace WasmX64

namespace Compile

open Sequence

namespace Obeys

variable {law : ∀ ⦃α : Type⦄, Recording → Nat → Nat → Compile α → Prop}
  {names : RefKind → UInt32 → Prop} {faults : TrapKind → Prop} {tight : Prop}
  {recording : Recording} {α β : Type} {low middle high : Nat}

variable [lawful : Law law names faults tight]

include lawful

theorem askNames {next : Subject → Compile β}
    (each : ∀ subject, (∀ kind index, subject.module.Names kind index → names kind index) →
      Obeys law recording low high (next subject))
    (same : ∀ first second : Subject, first.Alike second → next first = next second) :
    Obeys law recording low high (read >>= next) :=
  lawful.askNames each same

section Primitives

theorem emit (steps : List Step) : Obeys law recording low low (emit steps) := lawful.emit steps

theorem loadRef {kind : RefKind} {index : UInt32} (target : Register)
    (named : names kind index) : Obeys law recording low low (loadRef target kind index) :=
  lawful.loadRef target named

theorem loadLone {kind : RefKind} (target : Register) (lone : kind.isLone = true)
    (index : UInt32) : Obeys law recording low low (Compile.loadRef target kind index) :=
  loadRef target (lawful.lone index lone)

theorem newLabel : Obeys law recording low low newLabel := lawful.newLabel

theorem reblock (change : List Block → List Block)
    (keeps : tight → ∀ state : Compilation, state.Under low →
      ∀ block ∈ change state.blocks, block.Under low) :
    Obeys law recording low low
      (modify fun state : Compilation => { state with blocks := change state.blocks })   :=
  lawful.note (fun _ => .same rfl) (fun _ _ => rfl) fun tight state under =>
    under.reblock (keeps tight state under)

theorem modifyBlock (depth : Nat) {change : Block → Block}
    (keeps : tight → ∀ block : Block, block.Under low → (change block).Under low) :
    Obeys law recording low low (modifyBlock depth change) := by
  refine reblock (·.modify depth change) fun tight state under block member => ?_
  obtain ⟨place, inside, found⟩ := List.mem_iff_getElem.mp member
  rw [List.getElem_modify] at found
  have below := under.blocks _ (List.getElem_mem (by simpa using inside))
  split at found
  · exact found ▸ keeps tight _ below
  · exact found ▸ below

theorem touchBlock (depth : Nat) {change : Block → Block}
    (same : ∀ block : Block, (change block).base = block.base ∧
      (change block).results = block.results ∧ (change block).join = block.join ∧
      (change block).elseLayout = block.elseLayout) :
    Obeys law recording low low (Compile.modifyBlock depth change) := by
  refine modifyBlock depth fun _ block under => ?_
  obtain ⟨base, results, join, saved⟩ := same block
  exact ⟨base ▸ under.base, results ▸ under.results, join ▸ under.join, saved ▸ under.saved⟩

theorem modifyJoin (depth : Nat) {join : Layout} (lower : tight → join.height ≤ low) :
    Obeys law recording low low (Compile.modifyBlock depth ({ · with join })) :=
  modifyBlock depth fun tight _ under => ⟨under.base, under.results, lower tight, under.saved⟩

theorem closeBlock : Obeys law recording low low closeBlock :=
  reblock List.tail fun _ _ under block member => under.blocks block (List.mem_of_mem_tail member)

theorem addTrap {kind : TrapKind} (raised : faults kind) :
    Obeys law recording low low (addTrap kind) := by
  refine newLabel.andThen fun label => andThen (lawful.note (fun state => ?_) (fun _ _ => rfl) ?_)
    fun _ => pure
  · refine ⟨rfl, rfl, rfl, rfl, rfl, rfl, _, Array.toList_push .., fun stub member => ?_⟩
    rw [List.mem_singleton.mp member]
    exact ⟨rfl, raised⟩
  · exact fun _ _ under => ⟨under.height, under.frame, under.blocks, under.refs, under.sources⟩

theorem machine {event : MachineEvent} {action : Compile Unit} (loud : recording ≠ .nothing)
    (inside : Obeys law .nothing low high action) :
    Obeys law recording low high (machine event action) :=
  lawful.machine event loud inside

theorem bracket {what : Happening} (isBlock : what.isBlock = true) :
    Obeys law .blocks low low (record what) :=
  lawful.block isBlock

theorem openBlock (kind : BlockKind) {results : List ValueType} {setUp : Block → Block}
    (below : tight → ∀ block : Block, block.results = results → block.join = {} →
      block.elseLayout = none → (setUp block).Under low) :
    Obeys law recording low low (openBlock kind results setUp) := by
  refine newLabel.andThen fun label => newLabel.andThen fun elseLabel => ?_
  refine reblock (fun blocks => setUp { Block.opened blocks kind results with label, elseLabel } ::
    blocks) fun tight state under block member => ?_
  cases List.mem_cons.mp member with
  | inl new => exact new ▸ below tight _ rfl rfl rfl
  | inr old => exact under.blocks block old

end Primitives

section Numeric

theorem popOperands (type : ValueType) : Obeys law recording low low (popOperands type) := by
  refine (expect _ _).andThen fun _ => (expect _ _).andThen fun _ => ?_
  exact (popRegister _).andThen fun _ => (popRegister _).andThen fun _ => pure

theorem lowerBinary (type result : ValueType)
    {steps : Register → Register → Register → Compile (List Step)}
    (makes : ∀ dst left right, Obeys law recording low low (steps dst left right)) :
    Obeys law recording low (low + 1) (lowerBinary type result steps) := by
  refine (popOperands _).andThen fun operands => (takeRegister _ _ _).andThen fun dst => ?_
  exact (makes _ _ _).andThen fun _ => (emit _).andThen fun _ => push _

theorem lowerUnary (type result : ValueType) (steps : Register → Register → List Step) :
    Obeys law recording low (low + 1) (lowerUnary type result steps) := by
  refine (expect _ _).andThen fun _ => (popRegister _).andThen fun src => ?_
  exact (takeRegister _ _ _).andThen fun dst => (emit _).andThen fun _ => push _

theorem lowerDivision (part : Sequence.DivisionPart) (type : ValueType) (signed : Bool)
    (zero : faults .divideByZero) (overflow : signed = true ∧ part = .quotient →
      faults .integerOverflow) :
    Obeys law recording low (low + 1) (lowerDivision part type signed) := by
  have divides : ∀ (left right : Register) (zero overflow : Label),
      Obeys law recording low (low + 1) (do
        Compile.vacate .rax
        Compile.vacate .rdx
        let dst ← Compile.takeRegister .gp [left, right] RegSet.empty
        Compile.emit (Sequence.division part type signed dst left right zero overflow)
        pushRegister type dst) := by
    intro left right zero overflow
    refine (vacate _).andThen fun _ => (vacate _).andThen fun _ => ?_
    exact (takeRegister _ _ _).andThen fun _ => (emit _).andThen fun _ => push _
  refine (popOperands _).andThen fun operands => (addTrap zero).andThen fun _ => ?_
  split
  · rename_i wraps
    exact (addTrap (overflow wraps)).andThen fun _ => divides _ _ _ _
  · exact divides _ _ _ _

theorem lowerIntBinary (width : IntWidth) (op : IntBinary)
    (raised : ∀ kind ∈ (Opcode.intBinary width op).faults, faults kind) :
    Obeys law recording low (low + 1) (lowerIntBinary width op) := by
  unfold Compile.lowerIntBinary
  split
  · rename_i part lowering
    have listed := division_faults width lowering
    exact lowerDivision _ _ _ (raised _ listed.1) fun wraps => raised _ (listed.2 wraps)
  · exact lowerBinary _ _ fun _ _ _ => look (fun _ _ => rfl) fun _ _ => pure
  · exact lowerBinary _ _ fun _ _ _ => pure

theorem lowerConversion (op : Conversion)
    (raised : ∀ kind ∈ (Opcode.convert op).faults, faults kind) :
    Obeys law recording low (low + 1) (lowerConversion op) := by
  refine (expect _ _).andThen fun _ => (popRegister _).andThen fun src => ?_
  refine (takeRegister _ _ _).andThen fun dst => ?_
  have converts : ∀ trap : Target, Obeys law recording low (low + 1) (do
      Compile.emit (Sequence.conversion op dst src trap)
      pushRegister op.result dst) :=
    fun trap => (emit _).andThen fun _ => push _
  dsimp only
  split
  · exact (map (addTrap (raised _ (by simp [Opcode.faults])))).andThen converts
  · exact converts _

theorem globalAt {index : UInt32} {next : Global → Compile β}
    (each : ∀ global, names .global index → Obeys law recording low high (next global))
    (same : ∀ first second : Global, first.declaration = second.declaration →
      next first = next second) : Obeys law recording low high (globalAt index >>= next) := by
  unfold Compile.globalAt
  rw [bind_assoc]
  refine askNames (fun subject named => ?_) fun first second alike => ?_
  · dsimp only
    split
    · rename_i global found
      obtain ⟨has, _⟩ := Array.getElem?_eq_some_iff.mp found
      exact given (each global (named .global index has))
    · exact fails
  · have declared := alike.module.globals_at index.toNat
    dsimp only
    rw [alike.module.globals_size]
    cases left : first.module.globals[index.toNat]? with
    | none =>
      cases right : second.module.globals[index.toNat]? with
      | none => rfl
      | some other => simp [left, right] at declared
    | some global =>
      cases right : second.module.globals[index.toNat]? with
      | none => simp [left, right] at declared
      | some other =>
        simp only [left, right, Option.map_some, Option.some.injEq] at declared
        simpa only [pure_bind] using same global other declared

theorem lowerGlobalGet (loud : recording ≠ .nothing) (index : UInt32) :
    Obeys law recording low (low + 1) (lowerGlobalGet index) := by
  refine globalAt (fun global named => machine loud ?_) fun first second declared => ?_
  · refine (takeRegister _ _ _).andThen fun cell => (loadRef _ named).andThen fun _ => ?_
    exact (takeRegister _ _ _).andThen fun _ => (emit _).andThen fun _ => push _
  · rw [show first.type = second.type from congrArg Prod.fst declared]

theorem lowerGlobalSet (loud : recording ≠ .nothing) (index : UInt32) :
    Obeys law recording low low (lowerGlobalSet index) := by
  refine globalAt (fun global named => ?_) fun first second declared => ?_
  · refine demand ((expect _ _).andThen fun _ => machine loud ?_)
    refine (popRegister _).andThen fun value => (takeRegister _ _ _).andThen fun cell => ?_
    exact (loadRef _ named).andThen fun _ => emit _
  · rw [show first.type = second.type from congrArg Prod.fst declared,
      show first.isMutable = second.isMutable from congrArg Prod.snd declared]

theorem pushBits (type : ValueType) (bits : UInt64) :
    Obeys law recording low (low + 1) (pushBits type bits) :=
  (takeRegister _ _ _).andThen fun _ => (emit _).andThen fun _ => push _

theorem lowerIntConst (width : IntWidth) (bits : UInt64) :
    Obeys law recording low (low + 1) (lowerIntConst width bits) := by
  cases width with
  | w32 => exact push _
  | w64 => exact ite (push _) (pushBits _ _)

theorem lowerFloatConst (width : FloatWidth) (bits : UInt64) :
    Obeys law recording low (low + 1) (lowerFloatConst width bits) := by
  cases width with
  | w32 => exact pushBits _ _
  | w64 => exact pushBits _ _

theorem lowerSelect : Obeys law recording low (low + 1) lowerSelect := by
  refine (expect _ _).andThen fun _ => (operandType _).andThen fun type => ?_
  refine (expect _ _).andThen fun _ => (popRegister _).andThen fun condition => ?_
  refine (popRegister _).andThen fun _ => (popRegister _).andThen fun _ => ?_
  exact (takeRegister _ _ _).andThen fun _ => (emit _).andThen fun _ => push _

end Numeric

section Memory

theorem checkBounds (index : Register) (offset : UInt32) (bytes : Nat)
    (raised : faults .outOfBounds) :
    Obeys law recording low low (checkBounds index offset bytes) := by
  refine ask (fun subject => ite pure (ite ?_ (ite pure ?_))) fun first second alike => ?_
  · refine (addTrap raised).andThen fun _ => (emit _).andThen fun _ => touchBlock _ fun block => ?_
    split
    · exact ⟨rfl, rfl, rfl, rfl⟩
    · exact ⟨rfl, rfl, rfl, rfl⟩
  · refine (addTrap raised).andThen fun _ => (emit _).andThen fun _ => ?_
    exact (loadLone _ rfl _).andThen fun _ => emit _
  · rw [alike.host]

theorem lowerLoad (loud : recording ≠ .nothing) (op : LoadOp) (offset : UInt32)
    (raised : faults .outOfBounds) :
    Obeys law recording low (low + 1) (lowerLoad op offset) := by
  refine demandMemory.andThen fun _ => (expect _ _).andThen fun _ => ?_
  refine (popRegister _).andThen fun index => (checkBounds _ _ _ raised).andThen fun _ => machine loud ?_
  refine (takeRegister _ _ _).andThen fun base => (loadLone _ rfl _).andThen fun _ => ?_
  refine (takeRegister _ _ _).andThen fun dst => (emit _).andThen fun _ => ?_
  exact (emit _).andThen fun _ => push _

theorem lowerStore (loud : recording ≠ .nothing) (op : StoreOp) (offset : UInt32)
    (raised : faults .outOfBounds) :
    Obeys law recording low low (lowerStore op offset) := by
  refine demandMemory.andThen fun _ => (expect _ _).andThen fun _ => ?_
  refine (expect _ _).andThen fun _ => (popRegister _).andThen fun value => ?_
  refine (popRegister _).andThen fun index => (checkBounds _ _ _ raised).andThen fun _ => ?_
  refine machine loud ?_
  refine (takeRegister _ _ _).andThen fun base => (loadLone _ rfl _).andThen fun _ => ?_
  exact (emit _).andThen fun _ => emit _

theorem loadPages (dst cell : Register) : Obeys law recording low low (loadPages dst cell) :=
  (loadLone _ rfl _).andThen fun _ => emit _

theorem lowerMemorySize (loud : recording ≠ .nothing) :
    Obeys law recording low (low + 1) lowerMemorySize := by
  refine demandMemory.andThen fun _ => ask (fun subject => ?_) fun first second alike => ?_
  · refine (takeRegister _ _ _).andThen fun dst => ite ?_ ?_
    · exact (emit _).andThen fun _ => push _
    · exact (machine loud (loadPages _ _)).andThen fun _ => push _
  · rw [alike.host]

theorem lowerMemoryGrow (loud : recording ≠ .nothing) :
    Obeys law recording low (low + 1) lowerMemoryGrow := by
  refine demandMemory.andThen fun _ => (expect _ _).andThen fun _ => ?_
  refine ask (fun subject => ite ?_ ?_) fun first second alike => ?_
  · refine dropOperand.andThen fun _ => (takeRegister _ _ _).andThen fun dst => ?_
    exact (emit _).andThen fun _ => push _
  · refine (popRegister _).andThen fun delta => machine loud ?_
    refine (takeRegister _ _ _).andThen fun cell => (takeRegister _ _ _).andThen fun dst => ?_
    exact (loadPages _ _).andThen fun _ => (emit _).andThen fun _ => push _
  · rw [alike.host]

end Memory

section Calls

theorem finishCall (signature : Signature) :
    Obeys law recording low (low + 1) (finishCall signature) := by
  refine optional (emit _) ?_
  split
  · exact push _
  · exact pure.up

theorem lowerCall (loud : recording ≠ .nothing) (index : UInt32) :
    Obeys law recording low (low + 1) (lowerCall index) := by
  refine askNames (fun subject named => ?_) fun first second alike => ?_
  · split
    · exact throw
    · rename_i type found
      refine (calleeSignature _).andThen fun signature => (prepareCall _ _ _).andThen fun _ => ?_
      refine (machine loud (?_ : Obeys law _ low low _)).andThen fun _ => finishCall _
      refine (takeRegister _ _ _).andThen fun _ => (loadRef _ ?_).andThen fun _ => emit _
      exact named .func index (Module.functionType_lt found)
  · rw [alike.module.functionType]

theorem lowerCallIndirect (loud : recording ≠ .nothing) (index : UInt32)
    (undefined : faults .undefinedElement) (mismatch : faults .typeMismatch) :
    Obeys law recording low (low + 1) (lowerCallIndirect index) := by
  refine ask (fun subject => ?_) fun first second alike => ?_
  · dsimp only
    split
    · exact throw
    · refine (calleeSignature _).andThen fun signature => (expect _ _).andThen fun _ => ?_
      refine (popRegister _).andThen fun index => (takeRegister _ _ _).andThen fun table => ?_
      refine (takeRegister _ _ _).andThen fun entry => (addTrap undefined).andThen fun _ => ?_
      refine (loadLone _ rfl _).andThen fun _ => (emit _).andThen fun _ => ?_
      refine (addTrap mismatch).andThen fun _ => (loadLone _ rfl _).andThen fun _ => ?_
      refine (emit _).andThen fun _ => (loadLone _ rfl _).andThen fun _ => ?_
      refine (emit _).andThen fun _ => (prepareCall _ _ _).andThen fun _ => ?_
      exact (machine loud (emit _)).andThen fun _ => finishCall _
  · dsimp only
    rw [alike.module.typeAt, alike.module.canonicalType]

end Calls

section Branches

theorem finishBlock : Obeys law recording low low finishBlock :=
  touchBlock _ fun _ => ⟨rfl, rfl, rfl, rfl⟩

theorem lowerUnreachable (raised : faults .unreachable) :
    Obeys law recording low low lowerUnreachable :=
  (addTrap raised).andThen fun _ => (emit _).andThen fun _ => finishBlock

variable (loud : recording ≠ .nothing)

include loud

theorem branch (label : Label) (depth : Nat) : Obeys law recording low low (branch label depth) :=
  machine loud (emit _)

theorem branchIfZero (label : Label) (reg : Register) (depth : Nat) :
    Obeys law recording low low (branchIfZero label reg depth) :=
  machine loud (emit _)

theorem branchIfAtLeast (label : Label) (value bound : Register) :
    Obeys law recording low low (branchIfAtLeast label value bound) :=
  machine loud (emit _)

theorem bind (label : Label) (depth : Nat) : Obeys law recording low low (bind label depth) :=
  machine loud (emit _)

theorem returnFromFunction : Obeys law recording low low returnFromFunction := by
  have leave : Obeys law recording low low
      (Compile.machine { kind := .ret } (Compile.emit Sequence.epilogue)) :=
    machine loud (emit _)
  refine ask (fun subject => look (fun _ _ => rfl) fun state under => ?_) fun first second alike => ?_
  · refine innermost.andThen fun block => demand ?_
    split
    · exact leave
    · refine (expect _ _).andThen fun _ => ?_
      split
      · exact throw
      · refine (transfer (fun tight => (under tight).height) ?_).andThen fun _ => leave
        exact .bind (.loadInto _ _ _) fun _ => .execute
  · rw [alike.signature, alike.locals]

theorem branchTo (depth : Nat) : Obeys law recording low low (branchTo depth) := by
  rw [branchTo_eq]
  refine atTarget _ fun block below => look (fun _ _ => rfl) fun state under => ?_
  have leads : ∀ join : Layout, (tight → join.height ≤ low) →
      Obeys law recording low low (lead depth block state.layout join) := by
    intro join lower
    refine (modifyJoin _ lower).andThen fun _ => ?_
    refine (mergeBranch fun tight => (under tight).height).andThen fun _ => ?_
    refine (branch loud _ _).andThen fun _ => touchBlock _ fun block => ?_
    unfold Block.markTarget
    split
    · exact ⟨rfl, rfl, rfl, rfl⟩
    · exact ⟨rfl, rfl, rfl, rfl⟩
  refine ite (given (leads _ fun tight => (below tight).join)) ?_
  exact atJoin (fun tight => (under tight).height) leads

theorem branchOrReturn (depth : Nat) : Obeys law recording low low (branchOrReturn depth) :=
  (leavesFunction depth).andThen fun _ => ite (returnFromFunction loud) (branchTo loud depth)

theorem lowerBr (depth : Nat) : Obeys law recording low low (lowerBr depth) := by
  refine atTarget _ fun _ _ => innermost.andThen fun block => ?_
  exact (leavesFunction _).andThen fun _ => optional (branchOrReturn loud _) finishBlock

theorem lowerBrIf (depth : Nat) : Obeys law recording low low (lowerBrIf depth) := by
  refine atTarget _ fun _ _ => (expect _ _).andThen fun _ => ?_
  refine innermost.andThen fun block => ite drop ?_
  refine (popRegister _).andThen fun condition => newLabel.andThen fun after => ?_
  refine (branchIfZero loud _ _ _).andThen fun _ => (branchOrReturn loud _).andThen fun _ => ?_
  exact bind loud _ _

theorem lowerCase (cases : Array Label) (depth : Nat) :
    Obeys law recording low low (lowerCase cases depth) := by
  unfold Compile.lowerCase
  split
  · exact throw
  · refine look (fun _ _ => rfl) fun state _ => ite (branch loud _ _) ?_
    exact (bind loud _ _).andThen fun _ => branchOrReturn loud _

theorem lowerCases (cases : Array Label) (targets : Array UInt32) (value bound : Register)
    (fuel first last : Nat) :
    Obeys law recording low low (lowerCases cases targets value bound fuel first last) := by
  induction fuel generalizing first last with
  | zero => exact pure
  | succ fuel ih =>
    rw [Compile.lowerCases]
    refine ite (lowerCase loud _ _) (newLabel.andThen fun upper => (emit _).andThen fun _ => ?_)
    refine (branchIfAtLeast loud _ _ _).andThen fun _ => (ih _ _).andThen fun _ => ?_
    exact (bind loud _ _).andThen fun _ => ih _ _

theorem lowerBrTable (instr : Instr) : Obeys law recording low low (lowerBrTable instr) := by
  refine atTarget _ fun default _ => (demandTargets _ _).andThen fun _ => ?_
  refine (expect _ _).andThen fun _ => innermost.andThen fun block => ite ?_ ?_
  · exact drop.andThen fun _ => finishBlock
  · refine (popRegister _).andThen fun value => look (fun _ _ => rfl) fun state _ => ?_
    refine (mapM (fun _ => newLabel) _).andThen fun cases => ?_
    have last : Obeys law recording low low (do
        Compile.lowerCase cases.toArray instr.default.toNat
        Compile.finishBlock) :=
      (lowerCase loud _ _).andThen fun _ => finishBlock
    refine ite ?_ last
    refine (takeRegister _ _ _).andThen fun bound => newLabel.andThen fun beyond => ?_
    refine (emit _).andThen fun _ => (branchIfAtLeast loud _ _ _).andThen fun _ => ?_
    exact (lowerCases loud _ _ _ _ _ _ _).andThen fun _ => (bind loud _ _).andThen fun _ => last

end Branches

section Constructs

theorem enter (kind : BlockKind) (instr : Instr) :
    Obeys law recording low low (enter kind instr) := by
  refine check fun few => look (fun _ _ => rfl) fun state under => ?_
  refine openBlock _ fun tight block results join saved => ?_
  refine ⟨Int.ofNat_le.mpr (under tight).height, ?_, ?_, ?_⟩
  · dsimp only
    rw [results]
    omega
  · dsimp only
    rw [join]
    exact Nat.zero_le _
  · dsimp only
    rw [saved]
    simp

theorem lowerBlock (instr : Instr) : Obeys law .blocks low low (lowerBlock instr) :=
  (enter _ _).andThen fun _ => bracket rfl

theorem lowerLoop (instr : Instr) : Obeys law .blocks low low (lowerLoop instr) := by
  refine (enter _ _).andThen fun _ => spillLocals.andThen fun _ => ?_
  refine (bracket rfl).andThen fun _ => innermost.andThen fun block => ?_
  refine (bind Recording.blocks_loud _ _).andThen fun _ => look (fun _ _ => rfl) fun state tall => ?_
  refine modifyBlock _ fun tight _ under => ?_
  exact ⟨under.base, under.results, (tall tight).height, under.saved⟩

theorem lowerIf (instr : Instr) : Obeys law .blocks low low (lowerIf instr) := by
  refine (expect _ _).andThen fun _ => (popRegister _).andThen fun condition => ?_
  refine (enter _ _).andThen fun _ => (bracket rfl).andThen fun _ => ?_
  refine innermost.andThen fun block => ?_
  refine (branchIfZero Recording.blocks_loud _ _ _).andThen fun _ => ?_
  refine look (fun _ _ => rfl) fun state tall => modifyBlock _ fun tight block under => ?_
  refine ⟨under.base, under.results, under.join, ?_⟩
  rintro layout ⟨⟩
  exact (tall tight).height

section Loud

variable (loud : recording ≠ .nothing)

include loud

theorem startArm (label : Label) {layout : Layout} (lower : tight → layout.height ≤ low) :
    Obeys law recording low low (startArm label layout) := by
  refine andThen (touchBlock _ fun _ => ⟨rfl, rfl, rfl, rfl⟩) fun _ => ?_
  refine (bind loud _ _).andThen fun _ => (blockAt _).andThen fun _ => ?_
  refine (relayout lower).andThen fun _ => modifyBlock _ fun _ _ under => ?_
  exact ⟨under.base, under.results, under.join, by simp⟩

theorem lowerElse : Obeys law recording low low lowerElse := by
  rw [lowerElse_eq]
  refine atInnermost fun block below => demand ?_
  have arm : Obeys law recording low low
      (Compile.startArm block.elseLabel (block.elseLayout.getD {})) :=
    startArm loud _ fun tight => (below tight).armHeight
  refine ite (look (fun _ _ => rfl) fun state under => ?_) arm
  have joins : ∀ join : Layout, (tight → join.height ≤ low) →
      Obeys law recording low low (joinArms block state.layout join) := by
    intro join lower
    refine (modifyJoin _ lower).andThen fun _ => ?_
    refine (mergeAll fun tight => (under tight).height).andThen fun _ => ?_
    refine (branch loud _ _).andThen fun _ => ?_
    exact andThen (touchBlock _ fun _ => ⟨rfl, rfl, rfl, rfl⟩) fun _ => arm
  refine ite (given (joins _ fun tight => (below tight).join)) ?_
  exact atJoin (fun tight => (under tight).height) joins

theorem finishOneArmed {block : Block} (below : tight → block.Under low) :
    Obeys law recording low low (finishOneArmed block) := by
  rw [finishOneArmed_eq]
  have saved : tight → (block.elseLayout.getD {}).height ≤ low :=
    fun tight => (below tight).armHeight
  have joins : ∀ join : Layout, (tight → join.height ≤ low) →
      Obeys law recording low low (joinMissing block (block.elseLayout.getD {}) join) := by
    intro join lower
    have ends : Obeys law recording low low
        (finishArm block (block.elseLayout.getD {}) join) := by
      refine (bind loud _ _).andThen fun _ => ite ?_ (relayout saved)
      exact (mergeAll saved).andThen fun _ => relayout lower
    refine ite (look (fun _ _ => rfl) fun state under => ?_) ends
    refine (mergeAll fun tight => (under tight).height).andThen fun _ => ?_
    exact (branch loud _ _).andThen fun _ => ends
  refine demand (ite ?_ ?_)
  · exact atJoin saved joins
  · exact given (joins _ fun tight => (below tight).join)

theorem settleEnd {block : Block} (below : tight → block.Under low) :
    Obeys law recording low (low + 1) (settleEnd block) := by
  have join : tight → block.join.height ≤ low := fun tight => (below tight).join
  refine ite (finishOneArmed loud below).up (ite (resetToResults below) (ite ?_ ?_))
  · refine ite (look (fun _ _ => rfl) fun _ under => ?_) (relayout join).up
    refine (mergeAll fun tight => (under tight).height).andThen fun _ => ?_
    exact (relayout join).up
  · exact (demandEndHeight block).up

end Loud

theorem endFunction (block : Block) : Obeys law .blocks low low (endFunction block) := by
  have leaves : Obeys law .blocks low low (do
      Compile.record (.controlEnd block.kind)
      Compile.closeBlock) :=
    (bracket rfl).andThen fun _ => closeBlock
  refine ite ((demandEndHeight _).andThen fun _ => ?_) leaves
  exact (returnFromFunction Recording.blocks_loud).andThen fun _ => leaves

theorem leaveBlock (block : Block) : Obeys law recording low low (leaveBlock block) := by
  refine closeBlock.andThen fun _ => touchBlock _ fun parent => ?_
  split
  · exact ⟨rfl, rfl, rfl, rfl⟩
  · exact ⟨rfl, rfl, rfl, rfl⟩

theorem endBlock {block : Block} (below : tight → block.Under low) :
    Obeys law .blocks low (low + 1) (endBlock block) := by
  rw [endBlock_eq]
  refine (settleEnd Recording.blocks_loud below).andThen fun _ => (bracket rfl).andThen fun _ => ?_
  exact optional (bind Recording.blocks_loud _ _) (leaveBlock block)

theorem lowerEnd : Obeys law .blocks low (low + 1) lowerEnd :=
  atInnermost fun _ below => look (fun _ _ => rfl) fun _ _ =>
    ite (endFunction _).up (endBlock below)

end Constructs

/-- An instruction adds at most one slot, and stubs for its faults.  Apart from the blocks that
are opened and closed, only machine-level constructs are recorded. -/
theorem lower (loud : recording ≠ .nothing) (op : Opcode) (instr : Instr)
    (raised : ∀ kind ∈ op.faults, faults kind)
    (named : recording = .blocks ∨ (op.isStructured = false ∧ op ≠ .finish)) :
    Obeys law recording low (low + 1) (lower op instr) := by
  have inBlocks {action : Compile Unit} (structured : op.isStructured = true ∨ op = .finish)
      (obeys : Obeys law .blocks low (low + 1) action) :
      Obeys law recording low (low + 1) action := by
    cases named with
    | inl blocks => exact blocks ▸ obeys
    | inr plain => exact absurd structured (by simp [plain])
  cases op with
  | unreachable => exact (lowerUnreachable (raised _ (by simp [Opcode.faults]))).up
  | nop => exact pure.up
  | block => exact inBlocks (.inl rfl) (lowerBlock _).up
  | loop => exact inBlocks (.inl rfl) (lowerLoop _).up
  | branchIf => exact inBlocks (.inl rfl) (lowerIf _).up
  | otherwise => exact (lowerElse loud).up
  | finish => exact inBlocks (.inr rfl) lowerEnd
  | br => exact (lowerBr loud _).up
  | brIf => exact (lowerBrIf loud _).up
  | brTable => exact (lowerBrTable loud _).up
  | ret => exact ((returnFromFunction loud).andThen fun _ => finishBlock).up
  | call => exact lowerCall loud _
  | callIndirect =>
    exact lowerCallIndirect loud _ (raised _ (by simp [Opcode.faults]))
      (raised _ (by simp [Opcode.faults]))
  | drop => exact dropOperand.up
  | select => exact lowerSelect
  | localGet => exact lowerLocalGet _
  | localSet => exact (lowerLocalSet _ _).up
  | localTee => exact (lowerLocalSet _ _).up
  | globalGet => exact lowerGlobalGet loud _
  | globalSet => exact (lowerGlobalSet loud _).up
  | load op => exact lowerLoad loud _ _ (raised _ (by simp [Opcode.faults]))
  | store op => exact (lowerStore loud _ _ (raised _ (by simp [Opcode.faults]))).up
  | memorySize => exact lowerMemorySize loud
  | memoryGrow => exact lowerMemoryGrow loud
  | intConst width => exact lowerIntConst _ _
  | floatConst width => exact lowerFloatConst _ _
  | eqz width => exact lowerUnary _ _ _
  | intCompare width relation => exact lowerBinary _ _ fun _ _ _ => pure
  | floatCompare width relation => exact lowerBinary _ _ fun _ _ _ => pure
  | intUnary width op => exact lowerUnary _ _ _
  | intBinary width op => exact lowerIntBinary _ _ raised
  | floatUnary width op => exact lowerUnary _ _ _
  | floatBinary width op => exact lowerBinary _ _ fun _ _ _ => pure
  | convert op => exact lowerConversion _ raised
  | unknown code => exact throw

section Function

theorem demandSound : Obeys law recording low low demandSound := by
  refine look (fun _ _ => rfl) fun state _ => ?_
  split
  · exact throw
  · exact pure

theorem next (block : Block) : Obeys law recording low low (next block) := by
  unfold Compile.next
  split
  · exact andThen (touchBlock _ fun _ => ⟨rfl, rfl, rfl, rfl⟩) fun _ => pure
  · exact pure

theorem emitStubs (stubs : List TrapStub) : Obeys law recording low low (emitStubs stubs) := by
  induction stubs with
  | nil => exact pure
  | cons stub rest ih =>
    rw [Compile.emitStubs]
    refine look (fun _ _ => rfl) fun state _ => ite ih ?_
    refine (emit _).andThen fun _ => (loadLone _ rfl _).andThen fun _ => ?_
    refine ask (fun subject => ?_) fun first second alike => by rw [alike.index]
    exact (emit _).andThen fun _ => ih.andThen fun _ => pure

end Function

end Obeys

/-- What precedes the body, apart from the event and the number. -/
def places : Compile Nat := do
  let subject ← read
  let frame ← openFrame
  placeParams subject.signature.params
  placeLocals none subject.function.locals
  let base : Int := subject.locals
  openBlock .block subject.type.results fun block =>
    { block with base, join := { block.join with base }, pending := subject.function.body }
  modifyLayout ({ · with base })
  return frame

/-- What follows the body, apart from the number, the event and the result. -/
def reports (frame : Nat) : Compile (List TrapSite) := do
  let traps ← emitStubs (← get).stubs.toList
  setFrame frame
  demandSound
  return traps

section Function

variable {law : ∀ ⦃α : Type⦄, Recording → Compile α → Prop}
  {names : RefKind → UInt32 → Prop} {recording : Recording}
  {subject : Subject} {state : Compilation}

theorem obeys_places [framed : Framed law names] : law recording places := by
  have framing : Obeys (Unbounded law) recording 0 0 openFrame := framed.openFrame
  refine (Obeys.ask (fun subject => framing.andThen fun frame => ?_) ?_ :
    Obeys (Unbounded law) recording 0 0 places)
  · refine (Obeys.placeParams _).andThen fun _ => (Obeys.placeLocals _ _).andThen fun _ => ?_
    refine (Obeys.openBlock _ False.elim).andThen fun _ => ?_
    refine .mono (Obeys.andThen (Obeys.modifyLayout ?_) fun _ => .pure) False.elim
    exact fun _ => Nat.le_refl _
  · intro first second alike
    rw [alike.signature, alike.functionLocals, alike.locals, alike.type, alike.body]

theorem obeys_reports [framed : Framed law names] (frame : Nat) :
    law recording (reports frame) := by
  have patches : Obeys (Unbounded law) recording 0 0 (setFrame frame) := framed.setFrame frame
  refine (Obeys.look (fun _ _ => rfl) fun state _ => ?_ :
    Obeys (Unbounded law) recording 0 0 (reports frame))
  refine (Obeys.emitStubs _).andThen fun traps => patches.andThen fun _ => ?_
  exact Obeys.demandSound.andThen fun _ => .pure

theorem begin_run : begin subject state =
    (places >>= fun frame => do
      modify fun (state : Compilation) => { state with instr := 0 }
      return frame) subject
      { state with
        events := state.events.push (state.event subject (.functionStart subject.function)) } := by
  dsimp only [places, openFrame]
  simp only [bind_assoc, pure_bind]
  rfl

theorem conclude_run (frame : Nat) : conclude frame subject state =
    (reports frame >>= fun traps => do
      modify fun (state : Compilation) => { state with instr := -1 }
      record (.functionEnd subject.function)
      let state ← get
      return ({
        index := subject.index
        program := ⟨state.output.code.bytes, state.refs.toList, state.output.frameSlots⟩
        signature := subject.signature
        sources := state.sources
        traps } : Compiled)) subject state := by
  dsimp only [reports, setFrame]
  simp only [conclude, bind_assoc, pure_bind]
  rfl

end Function

end Compile

end WasmX64
