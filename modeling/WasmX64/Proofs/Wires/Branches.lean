import WasmX64.Proofs.Wires.Plain

/-!
# The wires of branches

A branch in code that is executed records that the end of its target is reached, so that the
label of the target may be waited for.  The labels of a branch table are fixed one by one;
each is fixed before it is jumped to.
-/

namespace WasmX64

/-- The wires while code that is executed branches: all blocks are executed, and the labels that
are gone are none of theirs. -/
structure Live (idle : Nat → Prop) (extra gone : List Label) (lands : Landing → Prop)
    (_ : Subject) (state : Compilation) : Prop where
  wires : Wires idle extra gone lands state
  opened : state.blocks ≠ []
  reached : ∀ block ∈ state.blocks, block.isReached = true
  apart : ∀ label ∈ gone, label ∉ extra ++ state.owned
  inside : ∀ label ∈ gone, label.index < state.output.code.labels.size

namespace Live

variable {idle : Nat → Prop} {extra gone : List Label} {lands further : Landing → Prop}
  {subject : Subject} {state after : Compilation} {label : Label}

theorem mono (live : Live idle extra gone lands subject state)
    (weaker : ∀ landing, lands landing → further landing) :
    Live idle extra gone further subject state :=
  ⟨live.wires.mono weaker, live.opened, live.reached, live.apart, live.inside⟩

theorem grow (live : Live idle extra gone lands subject state)
    (wires : Wires idle extra gone further after) (blocks : after.blocks = state.blocks)
    (stubs : after.stubs = state.stubs)
    (count : state.output.code.labels.size ≤ after.output.code.labels.size) :
    Live idle extra gone further subject after := by
  have owned : after.owned = state.owned := by
    rw [Compilation.owned, Compilation.owned, blocks, stubs]
  constructor
  · exact wires
  · rw [blocks]
    exact live.opened
  · rw [blocks]
    exact live.reached
  · rw [owned]
    exact live.apart
  · intro label member
    exact Nat.lt_of_lt_of_le (live.inside label member) count

theorem present (live : Live idle extra gone lands subject state)
    (known : label ∈ extra ++ state.owned) : label ∉ gone := by
  intro absent
  exact live.apart label absent known

theorem allow (live : Live idle extra gone lands subject state)
    (known : label.index < state.output.code.labels.size) (present : label ∉ gone) :
    Live idle (label :: extra) gone lands subject state := by
  refine ⟨live.wires.allow known, live.opened, live.reached, ?_, live.inside⟩
  intro other absent member
  rw [List.cons_append] at member
  cases List.mem_cons.mp member with
  | inl here => exact present (here ▸ absent)
  | inr there => exact live.apart other absent there

theorem drop (live : Live idle (label :: extra) gone lands subject state)
    (wires : Wires idle extra gone lands state) : Live idle extra gone lands subject state := by
  refine ⟨wires, live.opened, live.reached, ?_, live.inside⟩
  intro other absent member
  exact live.apart other absent (List.mem_cons_of_mem _ member)

/-- A block changes, but neither its labels nor whether it is executed. -/
theorem modifyBlock (live : Live idle extra gone lands subject state) {depth : Nat}
    {change : Block → Block} (alike : ∀ block, Wires.Alike gone block (change block))
    (reach : ∀ block, (change block).reach = block.reach) :
    Live idle extra gone lands subject
      { state with blocks := state.blocks.modify depth change } := by
  have owned : Compilation.owned { state with blocks := state.blocks.modify depth change } =
      state.owned := by
    rw [Compilation.owned, Compilation.owned]
    exact congrArg (· ++ _) (Wires.flatMap_modify fun block _ => alike block)
  constructor
  · apply live.wires.modifyBlock
    · exact fun block _ => alike block
    · exact fun block _ => .inl (reach block)
  · intro closed
    exact live.opened (List.modify_eq_nil_iff.mp closed)
  · intro block member
    obtain ⟨index, found⟩ := List.getElem?_of_mem member
    dsimp only at found
    rw [List.getElem?_modify] at found
    obtain ⟨before, there, rfl⟩ := Option.map_eq_some_iff.mp found
    have reached := live.reached before (List.mem_of_getElem? there)
    split
    · rw [Block.isReached, reach]
      exact reached
    · exact reached
  · rw [owned]
    exact live.apart
  · exact live.inside

/-- The labels of a table are forgotten. -/
theorem reclaimAll (live : Live idle extra gone lands subject state) :
    Wires idle extra [] lands state := by
  apply live.wires.reclaimAll
  intro label absent member
  exact live.apart label absent (List.mem_append_right _ member)

/-- Where code is executed, fields may lead to the end of the code. -/
theorem between (live : Live idle extra gone lands subject state) (forgotten : extra = []) :
    Between idle subject state := by
  subst forgotten
  apply live.reclaimAll.mono
  intro landing _
  obtain ⟨block, outer, opened⟩ := List.exists_cons_of_ne_nil live.opened
  exact .inr ⟨block, outer, opened, live.reached block (opened ▸ List.mem_cons_self)⟩

end Live

theorem Between.live {idle : Nat → Prop} {subject : Subject} {state : Compilation} {block : Block}
    {outer : List Block} (between : Between idle subject state) (opened : state.blocks = block :: outer)
    (reached : block.isReached = true) : Live idle [] [] Compile.anything subject state := by
  refine ⟨Wires.mono between fun _ _ => trivial, by simp [opened], ?_, by simp, by simp⟩
  rw [opened]
  exact (opened ▸ between.nested : Enclosed (block :: outer)).all reached

namespace Compile

variable {idle : Nat → Prop} {extra gone : List Label} {lands : Landing → Prop}
  {subject : Subject} {state : Compilation} {label : Label}

instance live_calm : Calm (Live idle extra gone lands) := by
  constructor
  · intro steps straight
    apply Keeps.modify
    intro subject state live
    have count := (Code.Extends.place state.output.code steps).count
    exact live.grow (live.wires.emitStraight straight) rfl rfl count
  · intro index
    apply Keeps.modify
    intro subject state live
    have same := state.output.code_needSlot index
    refine live.grow (live.wires.congr ?_ ?_ same) rfl rfl (Nat.le_of_eq ?_)
    · rfl
    · rfl
    · rw [same]
  · intro change
    apply Keeps.modify
    intro subject state live
    exact live.grow (live.wires.congr rfl rfl rfl) rfl rfl (Nat.le_refl _)

theorem live_record (what : Happening) :
    Keeps (Live idle extra gone lands) (record what) anything := by
  refine Keeps.read.andThen fun _ => .modify ?_
  intro subject state live
  exact live.grow (live.wires.congr rfl rfl rfl) rfl rfl (Nat.le_refl _)

theorem jump_wires {event : MachineEvent} {steps : List Step} (some : steps ≠ [])
    (resolves : ∀ step ∈ steps, step.Resolves [label] [])
    (wires : Wires idle extra gone lands state)
    (usable : Wires.Usable state idle extra gone [label]) :
    Ensures (machine event (emit steps)) subject state fun _ after =>
      Wires idle extra gone Code.nowhere after ∧ after.blocks = state.blocks ∧
        after.stubs = state.stubs ∧
        state.output.code.labels.size ≤ after.output.code.labels.size := by
  apply ensures_machine
  intro events
  refine ensures_emit.mpr fun events => ?_
  have count := (Code.Extends.place state.output.code steps).count
  have jumped := (wires.emitForward resolves usable).mono fun _ ends => some ends.1
  exact ⟨jumped.congr rfl rfl rfl, rfl, rfl, count⟩

theorem jump_live {event : MachineEvent} {steps : List Step} (some : steps ≠ [])
    (resolves : ∀ step ∈ steps, step.Resolves [label] [])
    (live : Live idle extra gone lands subject state)
    (usable : Wires.Usable state idle extra gone [label]) :
    Ensures (machine event (emit steps)) subject state fun _ after =>
      Live idle extra gone Code.nowhere subject after ∧ after.blocks = state.blocks := by
  refine (jump_wires some resolves live.wires usable).mono ?_
  rintro _ after ⟨wires, blocks, stubs, count⟩
  exact ⟨live.grow wires blocks stubs count, blocks⟩

theorem branch_live (depth : Nat) (live : Live idle extra gone lands subject state)
    (usable : Wires.Usable state idle extra gone [label]) :
    Ensures (branch label depth) subject state fun _ after =>
      Live idle extra gone Code.nowhere subject after ∧ after.blocks = state.blocks :=
  jump_live (by simp) (by simp [Step.Resolves, Target.Known]) live usable

theorem compareAndJump_ne_nil (condition : Condition) (target : Target) (type : ValueType)
    (left right : Register) : Sequence.compareAndJump condition target type left right ≠ [] := by
  unfold Sequence.compareAndJump
  split
  · simp
  · simp

theorem alike_markTarget (block : Block) : Wires.Alike gone block block.markTarget := by
  unfold Block.markTarget
  split
  · exact .of_kind rfl rfl rfl id
  · exact .of_kind rfl rfl rfl fun _ => rfl

theorem reach_markTarget (block : Block) : block.markTarget.reach = block.reach := by
  unfold Block.markTarget
  split
  · rfl
  · rfl

/-- A branch to a nested block records that its end is reached. -/
theorem mark_live {depth : Nat} {block parent : Block}
    (live : Live idle (block.label :: extra) gone lands subject state)
    (found : state.blocks[depth]? = some block)
    (around : state.blocks[depth + 1]? = some parent) (different : block.kind ≠ .loop) :
    Live idle extra gone lands subject
      { state with blocks := state.blocks.modify depth Block.markTarget } := by
  have marked : block.markTarget = { block with endReached := true } := if_neg different
  have changed : Live idle (block.label :: extra) gone lands subject
      { state with blocks := state.blocks.modify depth Block.markTarget } :=
    live.modifyBlock alike_markTarget reach_markTarget
  have executed := live.reached parent (List.mem_of_getElem? around)
  constructor
  · apply changed.wires.drop
    intro use here far stays _ _
    refine ⟨far, stays, .inr (.inr ⟨depth, block.markTarget, parent, ?_, ?_, ?_, ?_⟩)⟩
    · simp [found]
    · simp [around]
    · rw [marked]
      exact .inl ⟨different, here⟩
    · intro _
      refine ⟨executed, ?_⟩
      rw [marked]
      exact fun _ => rfl
  · exact changed.opened
  · exact changed.reached
  · intro other absent member
    exact changed.apart other absent (List.mem_cons_of_mem _ member)
  · exact changed.inside

theorem branchTo_live (depth : Nat) (live : Live idle extra gone lands subject state)
    (nested : depth + 1 ≠ state.blocks.length) :
    Ensures (branchTo depth) subject state fun _ after =>
      Live idle extra gone Code.nowhere subject after := by
  unfold branchTo
  refine (target_finds depth).andThen ?_
  rintro block state ⟨rfl, found⟩
  rw [ensures_bind, ensures_get]
  have inside : depth + 1 < state.blocks.length := by
    obtain ⟨below, _⟩ := List.getElem?_eq_some_iff.mp found
    omega
  have leads : ∀ join : Layout, Ensures (do
      modifyBlock depth ({ · with join })
      mergeBranch join state.layout block.branchArity
      branch block.label depth
      modifyBlock depth Block.markTarget) subject state fun _ after =>
      Live idle extra gone Code.nowhere subject after := by
    intro join
    rw [ensures_bind, ensures_modifyBlock, ensures_bind]
    have joined : Live idle extra gone lands subject
        { state with blocks := state.blocks.modify depth ({ · with join }) } :=
      live.modifyBlock (fun _ => .of_kind rfl rfl rfl id) fun _ => rfl
    refine ((Keeps.through (.mergeBranch False.elim) subject _ joined).and
      ((Idle.mergeBranch _ _ _).ensures fun _ _ _ same => same)).mono ?_
    rintro _ merged ⟨⟨live, _⟩, blocks⟩
    have here : merged.blocks[depth]? = some { block with join } := by
      rw [blocks, List.getElem?_modify, found]
      simp
    have owned : block.label ∈ merged.owned :=
      Compilation.mem_owned.mpr (.inl ⟨_, List.mem_of_getElem? here, .inl rfl⟩)
    have known := live.wires.known _ (List.mem_append_right _ owned)
    have present := live.present (List.mem_append_right _ owned)
    rw [ensures_bind]
    by_cases kind : block.kind = .loop
    · have bound : merged.output.code.error = none →
          (merged.output.code.label block.label).isBound = true := by
        intro fine
        have loops := live.wires.loops fine _ (List.mem_of_getElem? here) kind
        exact loops.resolve_left present
      refine (branch_live depth live (Wires.usable_bound known bound)).mono ?_
      rintro _ jumped ⟨live, _⟩
      exact ensures_modifyBlock.mpr (live.modifyBlock alike_markTarget reach_markTarget)
    · have allowed := live.allow known present
      have usable := Wires.usable_extra allowed.wires List.mem_cons_self present
      refine (branch_live depth allowed usable).mono ?_
      rintro _ jumped ⟨live, same⟩
      rw [ensures_modifyBlock]
      have around : jumped.blocks[depth + 1]? = some state.blocks[depth + 1] := by
        rw [same, blocks, List.getElem?_modify_ne _ _ (by omega)]
        exact List.getElem?_eq_getElem inside
      rw [← same] at here
      exact mark_live (by exact live) here around kind
  refine ensures_ite.mpr ⟨fun _ => ?_, fun _ => ?_⟩
  · exact ensures_bind.mpr (ensures_pure.mpr (leads block.join))
  · refine (initJoin_finds _ _ _).andThen ?_
    rintro join state ⟨rfl, _⟩
    exact leads join

theorem returnFromFunction_leaves {first last : Subject → Compilation → Prop}
    (calm : Calm first) (before : ∀ what, Keeps first (record what) anything)
    (after : ∀ what, Keeps last (record what) anything)
    (leaves : ∀ subject state, first subject state →
      Ensures (emit Sequence.epilogue) subject state fun _ after => last subject after)
    (holds : first subject state) :
    Ensures returnFromFunction subject state fun _ after => last subject after := by
  have finish : ∀ state, first subject state →
      Ensures (machine { kind := .ret } (emit Sequence.epilogue)) subject state
        fun _ after => last subject after := by
    intro state holds
    unfold machine
    refine (before _ subject state holds).andThen ?_
    rintro _ recorded ⟨holds, _⟩
    refine (leaves subject recorded holds).andThen ?_
    intro _ left holds
    exact (after _ subject left holds).mono fun _ _ kept => kept.1
  unfold returnFromFunction
  rw [ensures_bind, ensures_read, ensures_bind, ensures_get, ensures_bind]
  refine innermost_same.mono ?_
  rintro block state rfl
  refine ensures_ite.mpr ⟨fun _ => ensures_bind.mpr ensures_throw, fun _ => ?_⟩
  split
  · exact finish state holds
  · refine (Keeps.through (.expect 0 _) subject state holds).andThen ?_
    rintro _ tested ⟨holds, _⟩
    split
    · exact ensures_bind.mpr ensures_throw
    · refine Ensures.andThen (calm.transfer _ ?_ subject tested holds) ?_
      · exact .bind (.loadInto _ _ _) fun _ => .execute
      · rintro _ moved ⟨holds, _⟩
        exact finish moved holds

theorem epilogue_ne_nil : Sequence.epilogue ≠ [] := by simp [Sequence.epilogue]

theorem returnFromFunction_live (live : Live idle extra gone lands subject state) :
    Ensures returnFromFunction subject state fun _ after =>
      Live idle extra gone Code.nowhere subject after := by
  refine returnFromFunction_leaves live_calm live_record live_record ?_ live
  intro subject state live
  have count := (Code.Extends.place state.output.code Sequence.epilogue).count
  have wires := live.wires.emitForward Sequence.straight_epilogue.resolves Wires.usable_nil
  refine ensures_emit.mpr (live.grow (wires.mono ?_) rfl rfl count)
  intro landing ends
  exact epilogue_ne_nil ends.1

theorem returnFromFunction_within {start : Nat} {blocks : List Block}
    (within : Within idle extra gone lands start blocks subject state) :
    Ensures returnFromFunction subject state fun _ after =>
      Within idle extra gone Code.nowhere start blocks subject after := by
  refine returnFromFunction_leaves within_calm within_record within_record ?_ within
  intro subject state within
  have grows := (Code.Extends.place state.output.code Sequence.epilogue).size
  have wires := within.wires.emitForward Sequence.straight_epilogue.resolves Wires.usable_nil
  refine ensures_emit.mpr ⟨wires.mono ?_, Nat.le_trans within.later grows, within.blocks⟩
  intro landing ends
  exact epilogue_ne_nil ends.1

theorem branchOrReturn_live (depth : Nat) (live : Live idle extra gone lands subject state) :
    Ensures (branchOrReturn depth) subject state fun _ after =>
      Live idle extra gone Code.nowhere subject after := by
  unfold branchOrReturn leavesFunction
  rw [ensures_bind, ensures_bind, ensures_get, ensures_pure]
  refine ensures_ite.mpr ⟨fun _ => returnFromFunction_live live, fun stays => ?_⟩
  exact branchTo_live depth live (by simpa using stays)

section Labels

theorem newLabel_live (live : Live idle extra gone lands subject state) :
    Ensures newLabel subject state fun label after =>
      Live idle (label :: extra) gone lands subject after ∧ label ∉ gone := by
  unfold newLabel
  rw [ensures_modifyGet]
  have fresh := live.wires.fresh
  have apart : state.output.code.newLabel.1 ∉ gone := by
    intro absent
    exact Nat.lt_irrefl _ (live.inside _ absent)
  have wires := live.wires.newLabel.reclaim
    (Wires.looped_of_fresh fun member => fresh (List.mem_append_right _ member))
  have grown : Live idle extra gone lands subject _ :=
    live.grow wires rfl rfl (by simp [Code.newLabel])
  refine ⟨grown.allow ?_ apart, apart⟩
  simp [Code.newLabel]

theorem newCase_live (live : Live idle extra gone lands subject state) :
    Ensures newLabel subject state fun label after =>
      Live idle extra (label :: gone) lands subject after := by
  unfold newLabel
  rw [ensures_modifyGet]
  constructor
  · exact live.wires.newLabel
  · exact live.opened
  · exact live.reached
  · intro label absent
    cases List.mem_cons.mp absent with
    | inl here => exact here ▸ live.wires.fresh
    | inr there => exact live.apart label there
  · intro label absent
    have grows : state.output.code.labels.size < state.output.code.newLabel.2.labels.size := by
      simp [Code.newLabel]
    cases List.mem_cons.mp absent with
    | inl here => exact here ▸ grows
    | inr there => exact Nat.lt_trans (live.inside label there) grows

theorem newCases_live {α : Type} (list : List α)
    (live : Live idle extra gone lands subject state) :
    Ensures (list.mapM fun _ => newLabel) subject state fun labels after =>
      ∃ more, Live idle extra more lands subject after ∧ (∀ label ∈ labels, label ∈ more) ∧
        ∀ label ∈ gone, label ∈ more := by
  induction list generalizing state gone with
  | nil =>
    rw [List.mapM_nil, ensures_pure]
    exact ⟨gone, live, by simp, fun _ => id⟩
  | cons value rest ih =>
    rw [List.mapM_cons, ensures_bind]
    refine (newCase_live live).mono ?_
    intro label middle live
    refine (ih live).andThen ?_
    rintro labels after ⟨more, live, listed, kept⟩
    rw [ensures_pure]
    refine ⟨more, live, ?_, fun other member => kept other (List.mem_cons_of_mem _ member)⟩
    intro other member
    cases List.mem_cons.mp member with
    | inl here => exact kept other (here ▸ List.mem_cons_self)
    | inr there => exact listed other there

theorem bind_fixes (depth : Nat) (wires : Wires idle extra gone lands state)
    (inside : label.index < state.output.code.labels.size) :
    Ensures (bind label depth) subject state fun _ after =>
      Wires idle extra (label :: gone)
          (fun landing => lands landing ∨ state.Accepts idle extra gone ⟨landing.toField, label⟩)
          after ∧
        Wires.Looped after label ∧ after.blocks = state.blocks ∧ after.stubs = state.stubs ∧
        state.output.code.labels.size ≤ after.output.code.labels.size := by
  apply ensures_machine
  intro events
  refine ensures_emit.mpr fun events => ?_
  obtain ⟨fixed, bound⟩ := wires.bind inside
  have grows := (Code.Extends.place state.output.code [.bind (.label label)]).count
  refine ⟨fixed.congr rfl rfl rfl, ?_, rfl, rfl, grows⟩
  intro fine _ _ _ _
  exact bound fine

/-- A label is fixed that may have been used. -/
theorem bind_live (depth : Nat) (live : Live idle (label :: extra) gone lands subject state) :
    Ensures (bind label depth) subject state fun _ after =>
      Live idle extra gone anything subject after := by
  have inside := live.wires.known label List.mem_cons_self
  refine (bind_fixes depth live.wires inside).mono ?_
  rintro _ after ⟨fixed, looped, blocks, stubs, count⟩
  have wires : Wires idle (label :: extra) (label :: gone) anything after :=
    fixed.mono fun _ _ => trivial
  have grown : Live idle (label :: extra) gone anything subject after :=
    live.grow (wires.reclaim looped) blocks stubs count
  exact grown.drop ((wires.dropGone List.mem_cons_self).reclaim looped)

/-- A label is fixed that has not been used. -/
theorem bindCase_live (depth : Nat) (live : Live idle extra gone lands subject state)
    (absent : label ∈ gone) :
    Ensures (bind label depth) subject state fun _ after =>
      Live idle extra gone anything subject after := by
  refine (bind_fixes depth live.wires (live.inside label absent)).mono ?_
  rintro _ after ⟨fixed, looped, blocks, stubs, count⟩
  exact live.grow ((fixed.reclaim looped).mono fun _ _ => trivial) blocks stubs count

end Labels

section Tables

theorem lowerCase_live {cases : Array Label} (depth : Nat)
    (live : Live idle extra gone lands subject state) (absent : ∀ label ∈ cases, label ∈ gone) :
    Ensures (lowerCase cases depth) subject state fun _ after =>
      Live idle extra gone Code.nowhere subject after := by
  unfold lowerCase
  split
  · exact ensures_throw
  · rename_i label found
    have listed := absent label (Array.mem_of_getElem? found)
    rw [ensures_bind, ensures_get]
    refine ensures_ite.mpr ⟨fun bound => ?_, fun _ => ?_⟩
    · have usable : Wires.Usable state idle extra gone [label] :=
        Wires.usable_bound (live.inside label listed) fun _ => bound
      refine (branch_live depth live usable).mono ?_
      intro _ after jumped
      exact jumped.1
    · refine (bindCase_live depth live listed).andThen ?_
      intro _ bound live
      exact branchOrReturn_live depth live

theorem lowerCases_live {cases : Array Label} (targets : Array UInt32) (value bound : Register)
    (fuel first last : Nat) (live : Live idle extra gone anything subject state)
    (absent : ∀ label ∈ cases, label ∈ gone) :
    Ensures (lowerCases cases targets value bound fuel first last) subject state fun _ after =>
      Live idle extra gone anything subject after := by
  induction fuel generalizing state extra first last with
  | zero =>
    rw [lowerCases, ensures_pure]
    exact live
  | succ fuel ih =>
    rw [lowerCases]
    refine ensures_ite.mpr ⟨fun _ => ?_, fun _ => ?_⟩
    · refine (lowerCase_live _ live absent).mono ?_
      intro _ after live
      exact live.mono fun _ _ => trivial
    · refine (newLabel_live live).andThen ?_
      rintro upper labelled ⟨live, present⟩
      rw [ensures_bind]
      have loads := Sequence.straight_loadConstant .i32 bound
        (UInt64.ofNat (first + (last - first) / 2))
      refine (live_calm.emit loads subject labelled live).mono ?_
      rintro _ loaded ⟨live, _⟩
      rw [ensures_bind]
      have usable := Wires.usable_extra live.wires List.mem_cons_self present
      refine (jump_live (compareAndJump_ne_nil _ _ _ _ _) (Sequence.resolves_compareAndJump (by decide) _ _ _ (by simp))
        live usable).mono ?_
      rintro _ jumped ⟨live, _⟩
      refine (ih _ _ (live.mono fun _ _ => trivial)).andThen ?_
      intro _ lower live
      refine (bind_live 0 live).andThen ?_
      intro _ fixed live
      exact ih _ _ live

end Tables

/-- The rest of the innermost block is dead code, which nothing that is executed leads to. -/
theorem finishBlock_between (wires : Wires idle [] [] lands state)
    (ends : ∀ landing, lands landing → idle landing.site) :
    Ensures finishBlock subject state fun _ after => Between idle subject after := by
  refine ensures_modifyBlock.mpr (Wires.mono ?_ fun landing leads => .inl (ends landing leads))
  apply wires.modifyBlock
  · intro block _
    exact .of_kind rfl rfl rfl id
  · intro block _
    refine .inr ⟨rfl, ?_⟩
    intro reached
    cases reached

section Lowering

variable {block : Block} {outer : List Block}

theorem lowerUnreachable_between (between : Between idle subject state) :
    Ensures lowerUnreachable subject state fun _ after => Between idle subject after := by
  unfold lowerUnreachable
  refine (within_addTrap .unreachable (between.within rfl)).andThen ?_
  rintro trap trapped ⟨within, stubbed, _⟩
  refine (jump_stub within stubbed (by simp) (by simp [Step.Resolves, Target.Known])).andThen ?_
  intro _ jumped within
  exact finishBlock_between within.wires fun _ => False.elim

theorem return_between (between : Between idle subject state) :
    Ensures (do
      returnFromFunction
      finishBlock) subject state fun _ after => Between idle subject after := by
  refine (returnFromFunction_within (between.within rfl)).andThen ?_
  intro _ returned within
  exact finishBlock_between within.wires fun _ => False.elim

theorem lowerBr_between (depth : Nat) (between : Between idle subject state)
    (opened : state.blocks = block :: outer) :
    Ensures (lowerBr depth) subject state fun _ after => Between idle subject after := by
  unfold lowerBr
  refine (target_finds depth).andThen ?_
  rintro _ state ⟨rfl, _⟩
  refine (innermost_finds opened).andThen ?_
  rintro block state ⟨rfl, rfl⟩
  unfold leavesFunction
  rw [ensures_bind, ensures_bind, ensures_get, ensures_pure]
  refine ensures_ite.mpr ⟨fun leaves => ?_, fun stays => ?_⟩
  · rw [ensures_bind]
    cases reached : block.isReached with
    | true =>
      refine (branchOrReturn_live depth (between.live opened reached)).mono ?_
      intro _ branched live
      exact finishBlock_between live.reclaimAll fun _ => False.elim
    | false =>
      -- code that is compiled for its types only still returns
      rw [reached, Bool.false_or] at leaves
      unfold branchOrReturn leavesFunction
      rw [ensures_bind, ensures_bind, ensures_get, ensures_pure]
      refine ensures_ite.mpr ⟨fun _ => ?_, fun stays => absurd leaves stays⟩
      refine (returnFromFunction_within (between.within rfl)).mono ?_
      intro _ returned within
      exact finishBlock_between within.wires fun _ => False.elim
  · simp only [Bool.or_eq_true, not_or, Bool.not_eq_true] at stays
    apply finishBlock_between between
    intro landing ending
    exact (opened ▸ ending).asleep stays.1

theorem lowerBrIf_between (depth : Nat) (between : Between idle subject state)
    (opened : state.blocks = block :: outer) :
    Ensures (lowerBrIf depth) subject state fun _ after => Between idle subject after := by
  unfold lowerBrIf
  refine (target_finds depth).andThen ?_
  rintro _ state ⟨rfl, _⟩
  refine (expect_top .i32).andThen ?_
  rintro _ state ⟨rfl, _⟩
  refine (innermost_finds opened).andThen ?_
  rintro block state ⟨rfl, rfl⟩
  refine ensures_ite.mpr ⟨fun _ => ?_, fun reached => ?_⟩
  · exact (between_calm.modifyLayout _ subject state between).mono fun _ _ kept => kept.1
  · have live := between.live opened (by simpa using reached)
    refine (Keeps.through (.popRegister _) subject state live).andThen ?_
    rintro condition popped ⟨live, _⟩
    refine (newLabel_live live).andThen ?_
    rintro beyond labelled ⟨live, present⟩
    rw [ensures_bind]
    have usable := Wires.usable_extra live.wires List.mem_cons_self present
    refine (jump_live (compareAndJump_ne_nil _ _ _ _ _) (Sequence.resolves_compareAndJump (by decide) _ _ _ (by simp))
      live usable).mono ?_
    rintro _ jumped ⟨live, _⟩
    refine (branchOrReturn_live depth live).andThen ?_
    intro _ branched live
    refine (bind_live depth live).mono ?_
    intro _ fixed live
    exact live.between rfl

theorem demandTargets_same (wanted : Nat) (targets : List UInt32) :
    Ensures (demandTargets wanted targets) subject state fun _ after => after = state := by
  induction targets with
  | nil => exact ensures_pure.mpr rfl
  | cons depth rest ih =>
    rw [demandTargets, ensures_bind]
    refine (target_finds _).mono ?_
    rintro block state ⟨rfl, _⟩
    exact ensures_ite.mpr ⟨fun _ => ensures_bind.mpr ensures_throw, fun _ => ih⟩

theorem lowerBrTable_between (instr : Instr) (between : Between idle subject state)
    (opened : state.blocks = block :: outer) :
    Ensures (lowerBrTable instr) subject state fun _ after => Between idle subject after := by
  unfold lowerBrTable
  refine (target_finds _).andThen ?_
  rintro default state ⟨rfl, _⟩
  refine (demandTargets_same _ _).andThen ?_
  rintro _ state rfl
  refine (expect_top .i32).andThen ?_
  rintro _ state ⟨rfl, _⟩
  refine (innermost_finds opened).andThen ?_
  rintro block state ⟨rfl, rfl⟩
  refine ensures_ite.mpr ⟨fun dead => ?_, fun reached => ?_⟩
  · rw [ensures_bind, ensures_modifyLayout]
    refine finishBlock_between (Wires.congr between ?_ ?_ ?_) ?_
    · rfl
    · rfl
    · rfl
    · intro landing ending
      exact (opened ▸ ending).asleep (by simpa using dead)
  · have live := between.live opened (by simpa using reached)
    refine (Keeps.through (.popRegister _) subject state live).andThen ?_
    rintro value popped ⟨live, _⟩
    rw [ensures_bind, ensures_get, ensures_bind]
    refine (newCases_live _ live).mono ?_
    rintro cases labelled ⟨gone, live, listed, _⟩
    have absent : ∀ label ∈ cases.toArray, label ∈ gone := by simpa using listed
    have last : ∀ state, Live idle [] gone anything subject state →
        Ensures (do
          lowerCase cases.toArray instr.default.toNat
          finishBlock) subject state fun _ after => Between idle subject after := by
      intro state live
      refine (lowerCase_live _ live absent).andThen ?_
      intro _ lowered live
      exact finishBlock_between live.reclaimAll fun _ => False.elim
    refine ensures_ite.mpr ⟨fun _ => ?_, fun _ => last labelled live⟩
    refine (Keeps.through (.takeRegister _ _ _) subject labelled live).andThen ?_
    rintro bound taken ⟨live, _⟩
    refine (newLabel_live live).andThen ?_
    rintro beyond ready ⟨live, present⟩
    rw [ensures_bind]
    have loads := Sequence.straight_loadConstant .i32 bound (UInt64.ofNat instr.targets.length)
    refine (live_calm.emit loads subject ready live).mono ?_
    rintro _ loaded ⟨live, _⟩
    rw [ensures_bind]
    have usable := Wires.usable_extra live.wires List.mem_cons_self present
    refine (jump_live (compareAndJump_ne_nil _ _ _ _ _) (Sequence.resolves_compareAndJump (by decide) _ _ _ (by simp))
      live usable).mono ?_
    rintro _ jumped ⟨live, _⟩
    refine (lowerCases_live _ _ _ _ _ _ (live.mono fun _ _ => trivial) absent).andThen ?_
    intro _ searched live
    refine (bind_live _ live).andThen ?_
    intro _ fixed live
    exact last fixed live

end Lowering

end Compile

end WasmX64
