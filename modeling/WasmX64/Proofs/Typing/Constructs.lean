import WasmX64.Proofs.Typing.Branches

/-!
# Constructs by their types

Opening a construct, going over to its else arm and closing it are steps of typing
wherever the values that arrive have the declared types, and the code behind a construct starts with
the declared results.
-/

namespace WasmX64

structure Block.Opens (block : Block) (kind : BlockKind) (instr : Instr) (height : Nat) :
    Prop where
  kind : block.kind = kind
  results : block.results = instr.results
  live : block.reach ≠ .unreachable
  base : block.base = height
  joinBase : block.join.base = height
  open_ : block.endReached = false
  pending : block.pending = instr.body
  hasElse : block.hasElse = instr.hasElse
  elseBody : block.elseBody = instr.elseBody

theorem Block.Opens.frame {block : Block} {kind : BlockKind} {instr : Instr} {height : Nat}
    (opens : block.Opens kind instr height) (loops : kind = .loop ↔ instr.op = .loop)
    (branches : kind = .ifThen ↔ instr.op = .branchIf) :
    block.frame = instr.opens height := by
  simp only [Block.frame, Instr.opens, Instr.label, opens.kind, opens.results, opens.live,
    opens.base, opens.pending, opens.hasElse, opens.elseBody, loops, branches,
    Int.toNat_natCast, ne_eq, not_false_eq_true, decide_true]

theorem Block.Opens.floor {block : Block} {kind : BlockKind} {instr : Instr} {height : Nat}
    (opens : block.Opens kind instr height) : block.frame.floor = height := by
  simp [Block.frame, opens.base]

theorem Block.Opens.saved {block : Block} {kind : BlockKind} {instr : Instr}
    {stack : List ValueType} (opens : block.Opens kind instr stack.length)
    (starts : kind = .loop → block.startReached = true ∧ block.join.Known ∧
      block.join.types = stack)
    (arms : kind = .ifThen → ∃ layout, block.elseLayout = some layout ∧ layout.Known ∧
      layout.types = stack) :
    block.Saved stack := by
  refine ⟨by rw [opens.base, opens.floor], by rw [opens.joinBase, opens.floor], ?_, ?_, ?_⟩
  · intro _ reached
    simp [opens.open_] at reached
  · rw [opens.kind, opens.floor, List.take_length]
    exact fun loops => ⟨(starts loops).1, opens.open_, (starts loops).2⟩
  · rw [opens.kind, opens.floor, List.take_length]
    exact arms

theorem Block.innerReach_live (block : Block) : block.innerReach ≠ .unreachable := by
  unfold Block.innerReach
  split <;> simp

theorem Block.live_of_isReached {block : Block} (reached : block.isReached = true) :
    block.frame.live = true := by
  have reach : block.reach = .reachable := by simpa [Block.isReached] using reached
  simp [Block.frame, reach]

theorem Block.opened_live (blocks : List Block) (kind : BlockKind) (results : List ValueType) :
    (Block.opened blocks kind results).reach ≠ .unreachable := by
  cases blocks with
  | nil => simp [Block.opened]
  | cons parent _ => exact parent.innerReach_live

namespace Compile

variable {subject : Subject} {state : Compilation}

theorem newLabel_keeps :
    Ensures newLabel subject state fun _ after =>
      after.layout = state.layout ∧ after.blocks = state.blocks := by
  unfold newLabel
  rw [ensures_modifyGet]
  exact ⟨rfl, rfl⟩

theorem openBlock_opens (kind : BlockKind) (results : List ValueType)
    (setUp : Block → Block) :
    Ensures (openBlock kind results setUp) subject state fun _ after =>
      after.layout = state.layout ∧ ∃ label elseLabel, after.blocks =
        setUp { Block.opened state.blocks kind results with label, elseLabel } ::
          state.blocks := by
  unfold openBlock
  refine newLabel_keeps.andThen fun label first ⟨firstLayout, firstBlocks⟩ => ?_
  refine newLabel_keeps.andThen fun elseLabel second ⟨secondLayout, secondBlocks⟩ => ?_
  rw [ensures_modify, ← firstBlocks, ← secondBlocks]
  exact ⟨secondLayout.trans firstLayout, label, elseLabel, rfl⟩

theorem blockAt_same (depth : Nat) :
    Ensures (blockAt depth) subject state fun _ after => after = state := by
  unfold blockAt
  simp only [ensures_bind, ensures_get]
  split
  · exact ensures_pure.mpr rfl
  · exact ensures_throw

theorem enter_opens (kind : BlockKind) (instr : Instr) :
    Ensures (enter kind instr) subject state fun _ after =>
      instr.results.length ≤ 1 ∧ after.layout = state.layout ∧
        ∃ block, after.blocks = block :: state.blocks ∧
          block.Opens kind instr state.types.length := by
  unfold enter
  refine ensures_ite.mpr ⟨fun _ => ensures_bind.mpr ensures_throw, fun few => ?_⟩
  rw [ensures_bind, ensures_get]
  refine (openBlock_opens _ _ _).mono ?_
  rintro _ after ⟨layout, label, elseLabel, blocks⟩
  refine ⟨by omega, layout, _, blocks, rfl, rfl,
    Block.opened_live state.blocks kind instr.results, ?_, ?_, rfl, rfl, rfl, rfl⟩
  · simp
  · simp

end Compile

namespace AtLive

open Compile

variable {subject : Subject} {state middle : Compilation} {block : Block} {outer : List Block}
  {instr : Instr}

theorem enter {after : Compilation} {inner : Block} {around : List Block}
    {rest : List ValueType} (here : AtLive subject state block outer)
    (types : state.types = rest ++ instr.condition) (reaches : state.Reaches rest.length)
    (op : instr.op.isStructured = true) (few : instr.results.length ≤ 1)
    (opened : after.blocks = inner :: around)
    (frames : around.map Block.frame = state.frames)
    (saves : ∀ other ∈ around, other.Saved after.types) (saved : inner.Saved after.types)
    (known : after.layout.Known) (left : after.types = rest)
    (frame : inner.frame = instr.opens rest.length) :
    after.Advances subject (block.owes instr :: outer.map Block.frame) state.types := by
  obtain ⟨stack, whole, above⟩ := here.operands types reaches
  by_cases numeric : Numeric instr.results
  · refine .inr ⟨?_, known, ?_⟩
    · have floor := here.length_below
      rw [Compilation.frames, opened, List.map_cons, frame, frames, here.frames, left]
      generalize state.types.take block.frame.floor = below at whole floor
      rw [types, whole, List.append_assoc]
      exact @Moves.enter _ (block.owes instr) _ _ _ _ _ here.isLive rfl floor op few numeric
    · rw [opened]
      intro other member
      rcases List.mem_cons.mp member with rfl | member
      · exact saved
      · exact saves other member
  · refine here.slip ?_
    rw [above]
    exact .alienResult op numeric

theorem lowerBlock (here : AtLive subject state block outer) (op : instr.op = .block) :
    Ensures (lowerBlock instr) subject state fun _ after =>
      after.Advances subject (block.owes instr :: outer.map Block.frame) state.types := by
  unfold Compile.lowerBlock
  refine (enter_opens .block instr).andThen ?_
  rintro _ entered ⟨few, layout, inner, opened, opens⟩
  refine (Quiet.record _ subject entered).mono fun _ after same => ?_
  have types : after.types = state.types := by
    rw [same.types, Compilation.types, layout]
    rfl
  refine here.enter ?_ here.reaches (by simp [op, Opcode.isStructured]) few
    (same.blocks.trans opened) rfl ?_ ?_ ?_ types (opens.frame (by simp [op]) (by simp [op]))
  · simp [Instr.condition, op]
  · rw [types]
    exact here.tracks.saves.blocks
  · rw [types]
    exact opens.saved (by simp) (by simp)
  · exact same.known (layout ▸ here.tracks.saves.known)

theorem lowerLoop (here : AtLive subject state block outer) (op : instr.op = .loop) :
    Ensures (lowerLoop instr) subject state fun _ after =>
      after.Advances subject (block.owes instr :: outer.map Block.frame) state.types := by
  unfold Compile.lowerLoop
  refine (enter_opens .loop instr).andThen ?_
  rintro _ entered ⟨few, layout, inner, opened, opens⟩
  refine (Quiet.spillLocals subject entered).andThen fun _ spilled first => ?_
  refine (Quiet.record _ subject spilled).andThen fun _ recorded second => ?_
  have before := first.trans second
  refine (innermost_finds (before.blocks.trans opened)).andThen ?_
  rintro inner recorded ⟨rfl, rfl⟩
  refine (Quiet.machine (Quiet.emit _) subject recorded).andThen fun _ bound third => ?_
  have same := before.trans third
  rw [ensures_bind, ensures_get, ensures_modifyBlock]
  have types : bound.types = state.types := by
    rw [same.types, Compilation.types, layout]
    rfl
  have known : bound.layout.Known := same.known (layout ▸ here.tracks.saves.known)
  let join : Layout := { bound.layout with base := inner.base }
  have header : ({ inner with join, startReached := true } : Block).Opens .loop instr
      state.types.length :=
    ⟨opens.kind, opens.results, opens.live, opens.base, opens.base, opens.open_, opens.pending,
      opens.hasElse, opens.elseBody⟩
  have blocks : bound.blocks.modify 0 ({ · with join, startReached := true }) =
      { inner with join, startReached := true } :: state.blocks := by
    rw [same.blocks, opened]
    rfl
  refine here.enter ?_ here.reaches (by simp [op, Opcode.isStructured]) few blocks rfl ?_ ?_
    known types (header.frame (by simp [op]) (by simp [op]))
  · simp [Instr.condition, op]
  · change ∀ other ∈ state.blocks, other.Saved bound.types
    rw [types]
    exact here.tracks.saves.blocks
  · change Block.Saved _ bound.types
    rw [types]
    exact header.saved (fun _ => ⟨rfl, known, types⟩) (by simp)

theorem lowerIf (here : AtLive subject state block outer) (op : instr.op = .branchIf) :
    Ensures (lowerIf instr) subject state fun _ after =>
      after.Advances subject (block.owes instr :: outer.map Block.frame) state.types := by
  unfold Compile.lowerIf
  refine (expect_top .i32).andThen ?_
  rintro _ state ⟨rfl, rest, types, reaches⟩
  refine (popRegister_shifts _).andThen ?_
  rintro condition popped ⟨type, shifts⟩
  have frames := Compilation.frames_congr shifts.blocks
  have stays := shifts.popped types
  have saves := here.saves_popped types reaches shifts
  refine (enter_opens .ifThen instr).andThen ?_
  rintro _ entered ⟨few, layout, inner, opened, opens⟩
  refine (Quiet.record _ subject entered).andThen fun _ recorded first => ?_
  refine (innermost_finds (first.blocks.trans opened)).andThen ?_
  rintro inner recorded ⟨rfl, rfl⟩
  refine (Quiet.machine (Quiet.emit _) subject recorded).andThen fun _ tested second => ?_
  have same := first.trans second
  rw [ensures_bind, ensures_get, ensures_modifyBlock]
  have kept : tested.types = popped.types := by
    rw [same.types, Compilation.types, layout]
    rfl
  have known : tested.layout.Known := same.known (layout ▸ saves.known)
  have arm : ({ inner with elseLayout := some tested.layout } : Block).Opens .ifThen instr
      popped.types.length :=
    ⟨opens.kind, opens.results, opens.live, opens.base, opens.joinBase, opens.open_,
      opens.pending, opens.hasElse, opens.elseBody⟩
  have blocks : tested.blocks.modify 0 ({ · with elseLayout := some tested.layout }) =
      { inner with elseLayout := some tested.layout } :: popped.blocks := by
    rw [same.blocks, opened]
    rfl
  refine here.enter ?_ reaches (by simp [op, Opcode.isStructured]) few blocks frames ?_ ?_
    known (kept.trans stays) ?_
  · simp [Instr.condition, op, types]
  · change ∀ other ∈ popped.blocks, other.Saved tested.types
    rw [kept]
    exact saves.blocks
  · change Block.Saved _ tested.types
    rw [kept]
    exact arm.saved (by simp) fun _ => ⟨_, rfl, known, kept⟩
  · rw [← stays]
    exact arm.frame (by simp [op]) (by simp [op])

end AtLive

namespace At

open Compile

variable {subject : Subject} {state middle : Compilation} {block : Block} {outer : List Block}

/-- At the end of an arm the declared results are on the stack, or typing meets a fault
that no instruction shows. -/
theorem falls_or_slips (pending : block.pending = []) :
    (block.frame.live = true → state.types.drop block.frame.floor = block.results) ∨
      OpenSlips subject.scope (block.frame :: outer.map Block.frame) state.types := by
  by_cases falls : block.frame.live = true →
      state.types.drop block.frame.floor = block.results
  · exact .inl falls
  · obtain ⟨live, differs⟩ := Classical.not_imp.mp falls
    refine .inr (.inl (.inl ⟨live, ?_⟩))
    change Slips _ block.pending _ _
    rw [pending]
    exact .fall differs

theorem initJoin_falls {join : Layout} (here : At subject state block outer)
    (above : state.types.drop block.frame.floor = block.results)
    (runs : Layout.initJoin subject.locals state.layout block.arity block.join =
      .ok () join) :
    join.base = block.frame.floor ∧ join.Known ∧
      join.types = state.types.take block.frame.floor ++ block.results := by
  have locals := (here.nested.floor _ List.mem_cons_self).1
  obtain ⟨base, known, _, types⟩ := Layout.initJoin_typed locals runs here.saved.joinBase
  refine ⟨base, known, ?_⟩
  have height : state.layout.height - block.arity = block.frame.floor := by
    have length := congrArg List.length above
    rw [List.length_drop, Compilation.length_types] at length
    have floor := here.floor_le
    rw [Compilation.length_types] at floor
    rw [Block.arity]
    omega
  rw [types, height, ← Compilation.types, above]

theorem mergeArm {join layout : Layout} {post : Unit → Compilation → Prop}
    (opened : state.blocks = block :: outer)
    (next : ∀ middle : Compilation,
      middle.blocks = { block with join, endReached := true } :: outer →
      Ensures (startArm block.elseLabel (block.elseLayout.getD {})) subject middle post) :
    Ensures (joinArms block layout join) subject state post := by
  unfold joinArms
  rw [ensures_bind, ensures_modifyBlock, ensures_bind]
  refine (Quiet.mergeAll join layout subject _).mono fun _ merged first => ?_
  refine (Quiet.machine (Quiet.emit _) subject merged).andThen fun _ jumped second => ?_
  rw [ensures_bind, ensures_modifyBlock]
  apply next
  rw [(first.trans second).blocks, opened]
  rfl

theorem startElse {join : Layout} {reached : Bool} (here : At subject state block outer)
    (kind : block.kind = .ifThen) (hasElse : block.hasElse = true)
    (pending : block.pending = [])
    (falls : block.frame.live = true → state.types.drop block.frame.floor = block.results)
    (blocks : middle.blocks = { block with join, endReached := reached } :: outer)
    (base : join.base = block.frame.floor)
    (joined : reached = true → join.Known ∧
      join.types = state.types.take block.frame.floor ++ block.results) :
    Ensures (startArm block.elseLabel (block.elseLayout.getD {})) subject middle fun _ after =>
      after.Advances subject (block.frame :: outer.map Block.frame) state.types := by
  obtain ⟨layout, kept, known, types⟩ := here.saved.arms kind
  unfold startArm
  rw [ensures_bind, ensures_modifyBlock, ensures_bind]
  refine (Quiet.machine (Quiet.emit _) subject _).mono fun _ bound same => ?_
  refine (blockAt_same 1).andThen ?_
  rintro parent bound rfl
  rw [ensures_bind, ensures_modifyLayout, ensures_modifyBlock, kept]
  let arm : Block :=
    { block with
      join, endReached := reached, kind := .elseArm, elseLayout := none
      reach := parent.innerReach, pending := block.elseBody }
  have result : bound.blocks.modify 0 (fun block =>
      { block with
        elseLayout := none, reach := parent.innerReach, pending := block.elseBody }) =
      arm :: outer := by
    rw [same.blocks, blocks]
    rfl
  have frame : arm.frame =
      { block.frame with live := true, pending := block.elseBody, otherwise := none } := by
    simp [arm, Block.frame, kind, parent.innerReach_live]
  refine .inr ⟨?_, known, fun other member => ?_⟩
  · have floor := here.length_below
    have whole := List.take_append_drop block.frame.floor state.types
    rw [Compilation.frames, result, List.map_cons, frame]
    change Moves _ _ _ _ layout.types
    rw [types]
    generalize state.types.take block.frame.floor = below at floor whole
    rw [← whole]
    refine .otherwise pending floor ?_ falls
    simp [Block.frame, kind, hasElse]
  · change Block.Saved other layout.types
    have listed : other ∈ arm :: outer := result ▸ member
    have below : layout.types.take block.frame.floor =
        state.types.take block.frame.floor := by
      rw [types, List.take_take, Nat.min_self]
    rcases List.mem_cons.mp listed with rfl | listed
    · refine ⟨here.saved.base, base, fun _ ended => ?_, by simp [arm], by simp [arm]⟩
      rw [show arm.frame.floor = block.frame.floor from rfl, below]
      exact joined ended
    · have around : other ∈ state.blocks := by
        rw [here.opened]
        exact List.mem_cons_of_mem block listed
      refine (here.tracks.saves.blocks other around).congr ?_
      rw [types, List.take_take, Nat.min_eq_left (here.floor_le_head around)]

theorem lowerElse (here : At subject state block outer) (kind : block.kind = .ifThen)
    (hasElse : block.hasElse = true) (pending : block.pending = []) :
    Ensures lowerElse subject state fun _ after =>
      after.Advances subject (block.frame :: outer.map Block.frame) state.types := by
  rcases @falls_or_slips subject state block outer pending with falls | slips
  · rw [lowerElse_eq]
    refine (innermost_finds here.opened).andThen ?_
    rintro block state ⟨rfl, rfl⟩
    refine ensures_ite.mpr ⟨fun other => absurd kind other, fun _ => ?_⟩
    refine ensures_ite.mpr ⟨fun reached => ?_, fun _ => ?_⟩
    · have above := falls (Block.live_of_isReached reached)
      rw [ensures_bind, ensures_get]
      refine ensures_ite.mpr ⟨fun ended => ?_, fun _ => ?_⟩
      · rw [ensures_bind, ensures_pure]
        refine mergeArm here.opened fun middle blocks => ?_
        exact here.startElse kind hasElse pending falls blocks here.saved.joinBase
          fun _ => here.saved.ends (by simp [kind]) ended
      · refine (initJoin_finds _ _ _).andThen ?_
        rintro join state ⟨rfl, runs⟩
        obtain ⟨base, joined⟩ := here.initJoin_falls above runs
        refine mergeArm here.opened fun middle blocks => ?_
        exact here.startElse kind hasElse pending falls blocks base fun _ => joined
    · exact here.startElse kind hasElse pending falls here.opened here.saved.joinBase
        (here.saved.ends (by simp [kind]))
  · exact fun _ _ _ => .inl slips

end At

end WasmX64

/-!
## Ends of constructs by their types

Whether the end of a block is reached by falling through, by branches, by both or
not at all, the code behind it starts with the declared results on the stack.
-/

namespace WasmX64

/-- The end of a block has been settled: its results are on the stack below which it
started, and only a construct without results may lack its else arm. -/
structure Settled (block : Block) (before after : Compilation) : Prop where
  blocks : after.blocks = before.blocks
  known : after.layout.Known
  types : after.types = before.types.take block.frame.floor ++ block.results
  arms : block.kind = .ifThen → block.results = []

theorem Layout.Known.truncate {layout : Layout} (known : layout.Known) (height : Nat) :
    (layout.truncate height).Known := by
  have dropped : ∀ fuel (layout : Layout), layout.Known → (dropTo height fuel layout).Known := by
    intro fuel
    induction fuel with
    | zero => exact fun _ known => known
    | succ fuel ih =>
      intro layout known
      rw [dropTo]
      split
      · exact ih _ known.drop
      · exact known
  exact dropped _ _ known

theorem Compile.pushResults {subject : Subject} {state : Compilation}
    (results : List ValueType) :
    Ensures (forIn results PUnit.unit fun type _ => do
      needSlot (← get).layout.height
      modifyLayout (·.push (.inFrame type))
      pure (ForInStep.yield PUnit.unit)) subject state fun _ after =>
      after.blocks = state.blocks ∧ (state.layout.Known → after.layout.Known) ∧
        after.types = state.types ++ results := by
  induction results generalizing state with
  | nil => exact ensures_pure.mpr ⟨rfl, id, (List.append_nil _).symm⟩
  | cons type rest ih =>
    rw [List.forIn_cons, ensures_bind, ensures_bind, ensures_get, ensures_bind,
      ensures_needSlot, ensures_bind, ensures_modifyLayout, ensures_pure]
    refine ih.mono ?_
    rintro _ after ⟨blocks, known, types⟩
    refine ⟨blocks, fun old => known (old.push (by simp [Slot.inFrame])), ?_⟩
    rw [types, Compilation.types, Layout.types_push, List.append_assoc]
    rfl

namespace At

open Compile

variable {subject : Subject} {state middle : Compilation} {block : Block} {outer : List Block}

theorem finishOneArmed (here : At subject state block outer) (kind : block.kind = .ifThen) :
    Ensures (finishOneArmed block) subject state fun _ after => Settled block state after := by
  obtain ⟨layout, kept, known, types⟩ := here.saved.arms kind
  rw [finishOneArmed_eq]
  rw [kept]
  refine ensures_ite.mpr ⟨fun _ => ensures_bind.mpr ensures_throw, fun arity => ?_⟩
  have none : block.results = [] := List.eq_nil_of_length_eq_zero (Decidable.not_not.mp arity)
  have settle : ∀ {join : Layout} {middle : Compilation},
      ((block.endReached || block.isReached) = true → join.Known ∧
        join.types = state.types.take block.frame.floor) → middle.blocks = state.blocks →
      Ensures (finishArm block ((some layout).getD {}) join) subject middle fun _ after =>
        Settled block state after := by
    intro join middle joined blocks
    refine (Quiet.machine (Quiet.emit _) subject middle).andThen fun _ bound first => ?_
    refine ensures_ite.mpr ⟨fun reached => ?_, fun _ => ?_⟩
    · refine (Quiet.mergeAll _ _ subject bound).andThen fun _ merged second => ?_
      rw [ensures_modifyLayout]
      refine ⟨(first.trans second).blocks.trans blocks, (joined reached).1, ?_, fun _ => none⟩
      rw [none, List.append_nil]
      exact (joined reached).2
    · rw [ensures_modifyLayout]
      refine ⟨first.blocks.trans blocks, known, ?_, fun _ => none⟩
      rw [none, List.append_nil]
      exact types
  have merge : ∀ join : Layout, ((block.endReached || block.isReached) = true → join.Known ∧
        join.types = state.types.take block.frame.floor) →
      Ensures (joinMissing block ((some layout).getD {}) join) subject state fun _ after =>
        Settled block state after := by
    intro join joined
    refine ensures_ite.mpr ⟨fun _ => ?_, fun _ => settle joined rfl⟩
    rw [ensures_bind, ensures_get, ensures_bind]
    refine (Quiet.mergeAll _ _ subject state).mono fun _ merged first => ?_
    refine (Quiet.machine (Quiet.emit _) subject merged).andThen fun _ jumped second => ?_
    exact settle joined (first.trans second).blocks
  refine ensures_ite.mpr ⟨fun fresh => ?_, fun old => ?_⟩
  · refine (initJoin_finds _ _ _).andThen ?_
    rintro join state ⟨rfl, runs⟩
    refine merge join fun _ => ?_
    have locals := (here.nested.floor _ List.mem_cons_self).1
    have typed := @Layout.initJoin_typed _ _ _ _ _ 0 locals runs here.saved.joinBase
    obtain ⟨_, joinKnown, _, joined⟩ := typed
    refine ⟨joinKnown, ?_⟩
    have beyond : layout.types.drop layout.height = [] :=
      List.drop_eq_nil_of_le (Nat.le_of_eq Layout.length_types)
    rw [joined, Option.getD_some, Nat.sub_zero, beyond, types, List.take_take, Nat.min_self,
      List.append_nil]
  · rw [ensures_bind, ensures_pure]
    refine merge block.join fun reached => ?_
    have ended : block.endReached = true := by
      cases ended : block.endReached <;> simp_all
    have saved := here.saved.ends (by simp [kind]) ended
    rw [none, List.append_nil] at saved
    exact saved

theorem resetToResults (here : At subject state block outer)
    (otherKind : block.kind ≠ .ifThen) :
    Ensures (resetToResults block) subject state fun _ after => Settled block state after := by
  unfold Compile.resetToResults
  rw [ensures_bind, ensures_modifyLayout, ensures_bind]
  refine (pushResults block.results).mono ?_
  rintro _ after ⟨blocks, known, types⟩
  rw [ensures_pure]
  refine ⟨blocks, known (here.tracks.saves.known.truncate _), ?_,
    fun other => absurd other otherKind⟩
  rw [types, Compilation.types, Layout.types_truncate]
  rfl

theorem settleEnd (here : At subject state block outer)
    (falls : block.frame.live = true → state.types.drop block.frame.floor = block.results) :
    Ensures (settleEnd block) subject state fun _ after => Settled block state after := by
  unfold Compile.settleEnd
  refine ensures_ite.mpr ⟨fun oneArmed => ?_, fun twoArmed => ?_⟩
  · exact here.finishOneArmed (by simpa [Block.isOneArmed] using oneArmed)
  have kind : block.kind ≠ .ifThen := by simpa [Block.isOneArmed] using twoArmed
  refine ensures_ite.mpr ⟨fun _ => here.resetToResults kind, fun reached => ?_⟩
  refine ensures_ite.mpr ⟨fun ended => ?_, fun fresh => ?_⟩
  · have inner : block.kind ≠ .loop := by
      intro loops
      have fresh := (here.saved.starts loops).2.1
      rw [ended] at fresh
      cases fresh
    obtain ⟨known, types⟩ := here.saved.ends inner ended
    have adopt : ∀ middle : Compilation, middle.blocks = state.blocks →
        Ensures (modifyLayout fun _ => block.join) subject middle fun _ after =>
          Settled block state after := by
      intro middle blocks
      rw [ensures_modifyLayout]
      exact ⟨blocks, known, types, fun other => absurd other kind⟩
    refine ensures_ite.mpr ⟨fun _ => ?_, fun _ => adopt state rfl⟩
    rw [ensures_bind, ensures_get, ensures_bind]
    exact (Quiet.mergeAll _ _ subject state).mono fun _ merged same => adopt merged same.blocks
  · have live : block.frame.live = true := by
      apply Block.live_of_isReached
      simp only [fresh] at reached
      cases isReached : block.isReached <;> simp_all
    unfold demandEndHeight
    rw [ensures_bind, ensures_get]
    refine ensures_ite.mpr ⟨fun _ => ensures_throw, fun _ => ensures_pure.mpr ?_⟩
    refine ⟨rfl, here.tracks.saves.known, ?_, fun other => absurd other kind⟩
    rw [← falls live, List.take_append_drop]

theorem endBlock (here : At subject state block outer) (around : outer ≠ [])
    (noElse : block.kind = .ifThen → block.hasElse = false) (pending : block.pending = []) :
    Ensures (endBlock block) subject state fun _ after =>
      after.Advances subject (block.frame :: outer.map Block.frame) state.types := by
  rcases @falls_or_slips subject state block outer pending with falls | slips
  · unfold Compile.endBlock
    refine (here.settleEnd falls).andThen fun _ settled ends => ?_
    refine (Quiet.record _ subject settled).andThen fun _ recorded same => ?_
    have close : ∀ {middle : Compilation} {change : Block → Block},
        settled.SameShape middle → (∀ parent, (change parent).outline = parent.outline) →
        Ensures (do closeBlock; modifyBlock 0 change) subject middle fun _ after =>
          after.Advances subject (block.frame :: outer.map Block.frame) state.types := by
      intro middle change same outline
      unfold closeBlock
      rw [ensures_bind, ensures_modify, ensures_modifyBlock]
      let left : Compilation := { state with blocks := outer }
      have behind : ({ middle with blocks := middle.blocks.tail.modify 0 change } :
          Compilation).outline = left.outline := by
        rw [Compilation.outline, same.blocks, ends.blocks, here.opened]
        obtain ⟨parent, others, rfl⟩ := List.exists_cons_of_ne_nil around
        simp [left, Compilation.outline, outline]
      have types : middle.types = state.types.take block.frame.floor ++ block.results :=
        same.types.trans ends.types
      refine .inr ⟨?_, ?_⟩
      · rw [Compilation.frames_congr behind]
        change Moves _ _ _ (outer.map Block.frame) middle.types
        rw [types]
        have floor := here.length_below
        have whole := List.take_append_drop block.frame.floor state.types
        generalize state.types.take block.frame.floor = below at floor whole
        rw [← whole]
        refine .finish pending floor (fun arm arms => ?_) falls fun _ => rfl
        by_cases kind : block.kind = .ifThen
        · refine ⟨?_, ends.arms kind⟩
          simpa [Block.frame, kind, noElse kind] using arms.symm
        · simp [Block.frame, kind] at arms
      · have inside : ∀ other ∈ outer, other ∈ state.blocks := by
          rw [here.opened]
          exact fun _ member => List.mem_cons_of_mem block member
        have saves : left.Saves :=
          ⟨here.tracks.saves.known, fun other member =>
            here.tracks.saves.blocks other (inside other member)⟩
        refine saves.congr behind (same.known ends.known) fun other member => ?_
        have lower := here.floor_le_head (inside other member)
        change middle.types.take _ = state.types.take _
        rw [types, List.take_append_of_le_length (here.length_below ▸ lower), List.take_take,
          Nat.min_eq_left lower]
    have outline : ∀ parent : Block,
        (if (!(block.isReached || block.endReached || block.isOneArmed) && parent.isReached)
          then { parent with reach := .specOnly } else parent).outline = parent.outline := by
      intro parent
      split
      · rename_i reached
        have reach : parent.reach = .reachable := by
          simp [Block.isReached] at reached
          exact reached.2
        simp [Block.outline, reach]
      · rfl
    refine ensures_ite.mpr ⟨fun _ => ?_, fun _ => close same outline⟩
    exact (Quiet.machine (Quiet.emit _) subject recorded).andThen fun _ bound other =>
      close (same.trans other) outline
  · exact fun _ _ _ => .inl slips

theorem endFunction (here : At subject state block []) (proper : subject.Proper)
    (pending : block.pending = []) :
    Ensures (endFunction block) subject state fun _ after =>
      after.Advances subject [block.frame] state.types := by
  rcases @falls_or_slips subject state block [] pending with falls | slips
  · have close : ∀ middle : Compilation, state.SameShape middle → Ensures (do
        record (.controlEnd block.kind)
        closeBlock) subject middle fun _ after =>
        after.Advances subject [block.frame] state.types := by
      intro middle first
      refine (Quiet.record _ subject middle).andThen fun _ recorded second => ?_
      have same := first.trans second
      unfold closeBlock
      rw [ensures_modify]
      have closed : recorded.blocks.tail = [] := by rw [same.blocks, here.opened]; rfl
      rw [closed]
      refine .inr ⟨?_, same.known here.tracks.saves.known, by simp⟩
      have floor := here.length_below
      have whole := List.take_append_drop block.frame.floor state.types
      have last := here.nested.last block.frame rfl
      rw [← whole]
      refine .finish pending floor (fun arm arms => ?_) falls (by simp)
      simp [last.2.1] at arms
    unfold Compile.endFunction
    refine ensures_ite.mpr ⟨fun _ => ?_, fun _ => close state (.refl state)⟩
    unfold demandEndHeight
    rw [ensures_bind, ensures_bind, ensures_get]
    refine ensures_ite.mpr ⟨fun _ => ensures_throw, fun _ => ensures_pure.mpr ?_⟩
    exact (returnFromFunction_finds proper here.reaches).andThen fun _ returned done =>
      close returned done.1
  · exact fun _ _ _ => .inl slips

theorem lowerEnd (here : At subject state block outer) (proper : subject.Proper)
    (noElse : block.kind = .ifThen → block.hasElse = false) (pending : block.pending = []) :
    Ensures lowerEnd subject state fun _ after =>
      after.Advances subject (block.frame :: outer.map Block.frame) state.types := by
  unfold Compile.lowerEnd
  refine (innermost_finds here.opened).andThen ?_
  rintro block state ⟨rfl, rfl⟩
  rw [ensures_bind, ensures_get, here.opened]
  cases outer with
  | nil => exact ensures_ite.mpr ⟨fun _ => here.endFunction proper pending, by simp⟩
  | cons parent others =>
    refine ensures_ite.mpr ⟨by simp, fun _ => ?_⟩
    exact here.endBlock (by simp) noElse pending

end At

end WasmX64
