import WasmX64.Proofs.Wires.Basic

/-!
# The wires of plain instructions

Plain instructions jump to places of their own and to stubs.  A place of its own may end up
at the end of the code, where the next instruction goes on; an access that certainly traps
has no such place, and leaves code behind it that is never executed.
-/

namespace WasmX64

/-- A field leads to the end of the code only from code that is never executed, unless the code
to come is executed. -/
def Ending (idle : Nat → Prop) (blocks : List Block) (landing : Landing) : Prop :=
  idle landing.site ∨ ∃ block outer, blocks = block :: outer ∧ block.isReached = true

theorem Ending.asleep {idle : Nat → Prop} {block : Block} {outer : List Block} {landing : Landing}
    (ending : Ending idle (block :: outer) landing) (dead : block.isReached = false) :
    idle landing.site := by
  cases ending with
  | inl asleep => exact asleep
  | inr awake =>
    obtain ⟨head, others, same, reached⟩ := awake
    cases same
    rw [dead] at reached
    cases reached

/-- The wires between two instructions. -/
def Between (idle : Nat → Prop) (_ : Subject) (state : Compilation) : Prop :=
  Wires idle [] [] (Ending idle state.blocks) state

/-- The wires of a compilation that has got past an offset and has given blocks open. -/
structure Within (idle : Nat → Prop) (extra gone : List Label) (lands : Landing → Prop)
    (start : Nat) (blocks : List Block) (_ : Subject) (state : Compilation) : Prop where
  wires : Wires idle extra gone lands state
  later : start ≤ state.output.code.size
  blocks : state.blocks = blocks

theorem Within.between {idle : Nat → Prop} {start : Nat} {blocks : List Block} {subject : Subject}
    {state : Compilation}
    (within : Within idle [] [] (Ending idle blocks) start blocks subject state) :
    Between idle subject state := by
  unfold Between
  rw [within.blocks]
  exact within.wires

theorem Between.within {idle : Nat → Prop} {blocks : List Block} {subject : Subject}
    {state : Compilation} (between : Between idle subject state)
    (opened : state.blocks = blocks) :
    Within idle [] [] (Ending idle blocks) state.output.code.size blocks subject state :=
  ⟨opened ▸ between, Nat.le_refl _, opened⟩

/-- A block changes, but neither its labels nor whether it is executed. -/
theorem Between.modifyBlock {idle : Nat → Prop} {subject : Subject} {state : Compilation}
    (between : Between idle subject state) {depth : Nat} {change : Block → Block}
    (alike : ∀ block, Wires.Alike [] block (change block))
    (reach : ∀ block, (change block).reach = block.reach) :
    Between idle subject { state with blocks := state.blocks.modify depth change } := by
  have wires := Wires.modifyBlock between (fun block (_ : state.blocks[depth]? = some block) =>
    alike block) fun block _ => .inl (reach block)
  apply wires.mono
  intro landing ending
  cases ending with
  | inl asleep => exact .inl asleep
  | inr awake =>
    obtain ⟨block, outer, opened, reached⟩ := awake
    dsimp only
    rw [opened]
    cases depth with
    | zero =>
      refine .inr ⟨change block, outer, rfl, ?_⟩
      rw [Block.isReached, reach]
      exact reached
    | succ depth => exact .inr ⟨block, _, List.modify_succ_cons _ _ _ _, reached⟩

namespace Compile

variable {idle : Nat → Prop} {extra gone : List Label} {lands : Landing → Prop} {start : Nat}
  {blocks : List Block} {subject : Subject} {state : Compilation}

instance within_calm : Calm (Within idle extra gone lands start blocks) := by
  constructor
  · intro steps straight
    apply Keeps.modify
    intro subject state within
    have grows := (Code.Extends.place state.output.code steps).size
    exact ⟨within.wires.emitStraight straight, Nat.le_trans within.later grows, within.blocks⟩
  · intro index
    apply Keeps.modify
    intro subject state within
    have same := state.output.code_needSlot index
    exact ⟨within.wires.congr rfl rfl same, same ▸ within.later, within.blocks⟩
  · intro change
    apply Keeps.modify
    intro subject state within
    exact ⟨within.wires.congr rfl rfl rfl, within.later, within.blocks⟩

theorem within_record (what : Happening) :
    Keeps (Within idle extra gone lands start blocks) (record what) anything := by
  refine Keeps.read.andThen fun _ => .modify ?_
  intro subject state within
  exact ⟨within.wires.congr rfl rfl rfl, within.later, within.blocks⟩

theorem within_loadRef (target : Register) (kind : RefKind) (index : UInt32) :
    Keeps (Within idle extra gone lands start blocks) (loadRef target kind index) anything := by
  apply Keeps.modify
  intro subject state within
  refine ⟨within.wires.loadRef target placeholder, ?_, within.blocks⟩
  dsimp only
  rw [Code.loadWide_eq]
  exact Nat.le_trans within.later (Code.Extends.emit _ _).size

theorem within_addTrap (kind : TrapKind)
    (within : Within idle extra gone lands start blocks subject state) :
    Ensures (addTrap kind) subject state fun label after =>
      Within idle extra gone lands start blocks subject after ∧ after.Stubbed label ∧
        ∀ other, state.Stubbed other → after.Stubbed other := by
  unfold addTrap newLabel
  rw [ensures_bind, ensures_modifyGet, ensures_bind, ensures_modify, ensures_pure]
  refine ⟨⟨within.wires.addTrap kind state.instr, within.later, within.blocks⟩, ?_, ?_⟩
  · exact ⟨_, Array.mem_push_self, rfl⟩
  · rintro other ⟨stub, member, same⟩
    exact ⟨stub, Array.mem_push_of_mem _ member, same⟩

theorem usable_stubs (wires : Wires idle extra [] lands state) {labels : List Label}
    (stubbed : ∀ label ∈ labels, state.Stubbed label) :
    Wires.Usable state idle extra [] labels := by
  intro _ label member
  have owned : label ∈ state.owned := Compilation.mem_owned.mpr (.inr (stubbed label member))
  refine ⟨wires.known label (List.mem_append_right _ owned), .inr ?_⟩
  intro field far _
  exact ⟨far, List.not_mem_nil, .inr (.inl (stubbed label member))⟩

theorem plain_within {op : Opcode} (plain : op.isPlain = true) (calm : op.isAccess = false)
    (instr : Instr) (books : Books subject state)
    (within : Within idle [] [] lands start blocks subject state)
    (ends : ∀ landing : Landing, start ≤ landing.site → lands landing) :
    Ensures (lower op instr) subject state fun _ after =>
      Within idle [] [] lands start blocks subject after := by
  let invariant : List Label → Subject → Compilation → Prop := fun labels subject state =>
    Within idle [] [] lands start blocks subject state ∧ ∀ label ∈ labels, state.Stubbed label
  have quiet : ∀ labels {change : Compilation → Compilation},
      (∀ state, (change state).stubs = state.stubs) →
      Keeps (Within idle [] [] lands start blocks) (modify change) anything →
      Keeps (invariant labels) (modify change) anything := by
    intro labels change stubs keeps subject state holds
    obtain ⟨within, stubbed⟩ := holds
    refine ensures_modify.mpr ⟨⟨(keeps subject state within () _ rfl).1, ?_⟩, trivial⟩
    intro label member
    rw [Compilation.Stubbed, stubs]
    exact stubbed label member
  have mild : ∀ labels, Calm (invariant labels) := by
    intro labels
    constructor
    · intro steps straight
      exact quiet labels (fun _ => rfl) (within_calm.emit straight)
    · intro index
      exact quiet labels (fun _ => rfl) (within_calm.needSlot index)
    · intro change
      exact quiet labels (fun _ => rfl) (within_calm.modifyLayout change)
  have routine : Routine False op.faults fun labels subject state =>
      Books subject state ∧ invariant labels subject state := by
    apply routine_of_calm
    · intro labels steps closed
      apply Keeps.modify
      rintro subject state ⟨within, stubbed⟩
      have grows := (Code.Extends.place state.output.code steps).size
      refine ⟨⟨?_, Nat.le_trans within.later grows, within.blocks⟩, stubbed⟩
      apply within.wires.emit closed (usable_stubs within.wires stubbed)
      intro landing behind
      exact ends landing (Nat.le_trans within.later behind)
    · intro labels what
      refine Keeps.read.andThen fun _ => quiet labels (fun _ => rfl) (.modify ?_)
      intro subject state within
      exact ⟨within.wires.congr rfl rfl rfl, within.later, within.blocks⟩
    · intro labels target kind index
      exact quiet labels (fun _ => rfl) (within_loadRef target kind index)
    · rintro labels kind _ subject state ⟨within, stubbed⟩
      refine (within_addTrap kind within).mono ?_
      rintro label after ⟨within, fresh, others⟩
      refine ⟨within, ?_⟩
      intro other member
      cases List.mem_cons.mp member with
      | inl here => exact here ▸ fresh
      | inr there => exact others other (stubbed other there)
    · rintro label labels subject state ⟨within, stubbed⟩
      exact ⟨within, fun other member => stubbed other (List.mem_cons_of_mem _ member)⟩
  have keeps : Keeps (fun subject state => Books subject state ∧ invariant [] subject state)
      (lower op instr) anything := by
    apply @Routine.lower_plain _ _ [] routine _ plain instr (fun _ => id)
    intro access
    rw [calm] at access
    cases access
  refine (keeps subject state ⟨books, within, by simp⟩).mono ?_
  intro _ after kept
  exact kept.1.2.1

section Access

instance between_calm : Calm (Between idle) := by
  have quiet : ∀ {action : Compile Unit},
      (∀ blocks, Keeps (Within idle [] [] (Ending idle blocks) 0 blocks) action anything) →
      Keeps (Between idle) action anything := by
    intro action keeps subject state between
    refine (keeps state.blocks subject state ⟨between, Nat.zero_le _, rfl⟩).mono ?_
    intro _ after kept
    exact ⟨kept.1.between, kept.2⟩
  constructor
  · intro steps straight
    exact quiet fun _ => within_calm.emit straight
  · intro index
    exact quiet fun _ => within_calm.needSlot index
  · intro change
    exact quiet fun _ => within_calm.modifyLayout change

theorem between_record (what : Happening) : Keeps (Between idle) (record what) anything := by
  refine Keeps.read.andThen fun _ => .modify ?_
  intro subject state between
  exact Wires.congr between rfl rfl rfl

theorem between_loadRef (target : Register) (kind : RefKind) (index : UInt32) :
    Keeps (Between idle) (loadRef target kind index) anything := by
  apply Keeps.modify
  intro subject state between
  exact Wires.loadRef between target placeholder

theorem jump_stub (within : Within idle [] [] lands start blocks subject state) {label : Label}
    (stubbed : state.Stubbed label) {steps : List Step} (some : steps ≠ [])
    (resolves : ∀ step ∈ steps, step.Resolves [label] []) :
    Ensures (emit steps) subject state fun _ after =>
      Within idle [] [] Code.nowhere start blocks subject after := by
  rw [ensures_emit]
  have usable := usable_stubs within.wires fun other member => List.mem_singleton.mp member ▸ stubbed
  have grows := (Code.Extends.place state.output.code steps).size
  refine ⟨?_, Nat.le_trans within.later grows, within.blocks⟩
  apply (within.wires.emitForward resolves usable).mono
  intro landing ends
  exact some ends.1

theorem checkBounds_between (index : Register) (offset : UInt32) (bytes : Nat)
    (within : Within idle [] [] (Ending idle blocks) start blocks subject state) :
    Ensures (checkBounds index offset bytes) subject state fun _ after =>
      Between idle subject after := by
  unfold checkBounds
  rw [ensures_bind, ensures_read]
  refine ensures_ite.mpr ⟨fun _ => ensures_pure.mpr within.between, fun _ => ?_⟩
  refine ensures_ite.mpr ⟨fun _ => ?_, fun _ => ?_⟩
  · refine (within_addTrap .outOfBounds within).andThen ?_
    rintro trap trapped ⟨within, stubbed, _⟩
    refine (jump_stub within stubbed (by simp) (by simp [Step.Resolves, Target.Known])).andThen ?_
    intro _ jumped within
    refine ensures_modifyBlock.mpr ?_
    apply Wires.mono _ fun _ => False.elim
    apply within.wires.modifyBlock
    · intro block _
      split
      · exact .of_kind rfl rfl rfl id
      · exact .of_kind rfl rfl rfl id
    · intro block _
      split
      · refine .inr ⟨rfl, ?_⟩
        intro reached
        cases reached
      · exact .inl rfl
  · refine ensures_ite.mpr ⟨fun _ => ensures_pure.mpr within.between, fun _ => ?_⟩
    refine (within_addTrap .outOfBounds within).andThen ?_
    rintro trap trapped ⟨within, stubbed, _⟩
    have sums := @Sequence.straight_two
      (.movImm .i64 .r10 (Int64.ofInt (offset.toNat + bytes : Nat))) (.alu .add .i64 .r10 index)
      ⟨rfl, rfl⟩
    have first := (within_calm.emit sums subject trapped within () _ rfl).1
    rw [ensures_bind, ensures_emit, ensures_bind]
    have second := (within_loadRef .r11 .memorySize 0 subject _ first () _ rfl).1
    refine ensures_modify.mpr ((jump_stub second stubbed (by simp) ?_).mono ?_)
    · simp +decide [Step.Resolves, Target.Known]
      rfl
    · intro _ tested within
      apply Within.between
      exact ⟨within.wires.mono fun _ => False.elim, within.later, within.blocks⟩

theorem between_access {before : Subject → Compilation → Prop} [calm : Calm before]
    (checks : ∀ index offset bytes subject state, before subject state →
      Ensures (checkBounds index offset bytes) subject state fun _ after =>
        Between idle subject after)
    {op : Opcode} (access : op.isAccess = true) (instr : Instr) (holds : before subject state) :
    Ensures (lower op instr) subject state fun _ after => Between idle subject after := by
  have memory : Keeps before demandMemory anything := .through .demandMemory
  have around : ∀ {event : MachineEvent} {action : Compile Unit},
      Keeps (Between idle) action anything →
      Keeps (Between idle) (machine event action) anything :=
    Keeps.machine between_record
  cases op
  case load op =>
    rw [lower, lowerLoad, ensures_bind]
    refine (memory subject state holds).mono ?_
    rintro _ first ⟨holds, _⟩
    refine (Keeps.through (.expect 0 .i32) subject first holds).andThen ?_
    rintro _ second ⟨holds, _⟩
    refine (Keeps.through (.popRegister _) subject second holds).andThen ?_
    rintro index third ⟨holds, _⟩
    refine (checks _ _ _ subject third holds).andThen ?_
    intro _ checked between
    refine Ensures.mono (around ?_ subject checked between) fun _ _ kept => kept.1
    refine (Keeps.through (.takeRegister _ _ _)).andThen fun base => ?_
    refine (between_loadRef _ _ _).andThen fun _ => ?_
    refine (Keeps.through (.takeRegister _ _ _)).andThen fun dst => ?_
    refine (between_calm.emit (Sequence.straight_memoryAddress _ _ _)).andThen fun _ => ?_
    refine (between_calm.emit (Sequence.straight_read _ _ _ _ _)).andThen fun _ => ?_
    exact between_calm.modifyLayout _
  case store op =>
    rw [lower, lowerStore, ensures_bind]
    refine (memory subject state holds).mono ?_
    rintro _ first ⟨holds, _⟩
    refine (Keeps.through (.expect 0 _) subject first holds).andThen ?_
    rintro _ second ⟨holds, _⟩
    refine (Keeps.through (.expect 1 .i32) subject second holds).andThen ?_
    rintro _ third ⟨holds, _⟩
    refine (Keeps.through (.popRegister _) subject third holds).andThen ?_
    rintro value fourth ⟨holds, _⟩
    refine (Keeps.through (.popRegister _) subject fourth holds).andThen ?_
    rintro index fifth ⟨holds, _⟩
    refine (checks _ _ _ subject fifth holds).andThen ?_
    intro _ checked between
    refine Ensures.mono (around ?_ subject checked between) fun _ _ kept => kept.1
    refine (Keeps.through (.takeRegister _ _ _)).andThen fun base => ?_
    refine (between_loadRef _ _ _).andThen fun _ => ?_
    refine (between_calm.emit (Sequence.straight_memoryAddress _ _ _)).andThen fun _ => ?_
    exact between_calm.emit (Sequence.straight_write _ _ _ _)
  all_goals cases access

end Access

theorem plain_between {op : Opcode} (plain : op.isPlain = true) (instr : Instr)
    (books : Books subject state) (between : Between idle subject state)
    (ends : ∀ landing : Landing, state.output.code.size ≤ landing.site →
      Ending idle state.blocks landing) :
    Ensures (lower op instr) subject state fun _ after => Between idle subject after := by
  have within := between.within rfl
  cases access : op.isAccess with
  | true =>
    apply between_access _ access instr within
    intro index offset bytes subject state within
    exact checkBounds_between index offset bytes within
  | false =>
    refine (plain_within plain access instr books within ends).mono ?_
    intro _ after within
    exact within.between

end Compile

end WasmX64
