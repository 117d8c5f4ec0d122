import WasmX64.Proofs.Wires.Branches

/-!
# The wires of constructs

A construct opens a block with two labels that nothing waits for.  The label of a loop is
fixed at once, that of an else arm where the arm begins, and those of the other blocks where
they end.
-/

namespace WasmX64

theorem Block.isReached_opened {blocks : List Block} {kind : BlockKind}
    {results : List ValueType} :
    (Block.opened blocks kind results).isReached = true ↔
      ∀ parent outer, blocks = parent :: outer → parent.isReached = true := by
  cases blocks with
  | nil => simp [Block.opened, Block.isReached]
  | cons parent outer =>
    simp only [Block.opened, Block.innerReach, Block.isReached]
    split
    · simp_all
    · simp_all

namespace Compile

variable {idle : Nat → Prop} {extra gone : List Label} {lands : Landing → Prop}
  {subject : Subject} {state : Compilation} {label : Label}

/-- What is known of the wires once a block is opened around the code to come. -/
structure Opens (idle : Nat → Prop) (lands : Landing → Prop) (before : Compilation)
    (kind : BlockKind) (block : Block) (after : Compilation) : Prop where
  blocks : after.blocks = block :: before.blocks
  kind : block.kind = kind
  reach : block.isReached = true ↔
    ∀ parent outer, before.blocks = parent :: outer → parent.isReached = true
  size : after.output.code.size = before.output.code.size
  wires : Wires idle [] [block.label] lands after
  fresh : ∀ other ∈ before.blocks, other.label ≠ block.label
  apart : block.elseLabel ≠ block.label

theorem Opens.forget {kind : BlockKind} {block : Block} {after : Compilation}
    (opens : Opens idle lands state kind block after) (different : kind ≠ .loop) :
    Wires idle [] [] lands after := by
  apply opens.wires.reclaim
  intro _ other member loop same
  rw [opens.blocks] at member
  cases List.mem_cons.mp member with
  | inl here => exact absurd (opens.kind.symm.trans (here ▸ loop)) different
  | inr there => exact absurd same (opens.fresh other there)

theorem openBlock_wires (kind : BlockKind) (results : List ValueType) {setUp : Block → Block}
    (same : ∀ block, (setUp block).label = block.label ∧
      (setUp block).elseLabel = block.elseLabel ∧ (setUp block).kind = block.kind ∧
      (setUp block).reach = block.reach)
    (wires : Wires idle [] [] lands state) :
    Ensures (openBlock kind results setUp) subject state fun _ after =>
      ∃ block, Opens idle lands state kind block after := by
  unfold openBlock newLabel
  rw [ensures_bind, ensures_modifyGet, ensures_bind, ensures_modifyGet, ensures_modify]
  dsimp only
  obtain ⟨labelled, elseLabelled, kinds, reaches⟩ :=
    same { Block.opened state.blocks kind results with
      label := state.output.code.newLabel.1
      elseLabel := state.output.code.newLabel.2.newLabel.1 }
  generalize setUp { Block.opened state.blocks kind results with
    label := state.output.code.newLabel.1
    elseLabel := state.output.code.newLabel.2.newLabel.1 } = block at *
  dsimp only at labelled elseLabelled kinds reaches
  have reach : block.isReached = true ↔
      ∀ parent outer, state.blocks = parent :: outer → parent.isReached = true := by
    rw [← Block.isReached_opened, Block.isReached, Block.isReached, reaches]
  have first := wires.newLabel
  have second := first.newLabel
  have fresh : block.label ∉ state.owned := by
    rw [labelled]
    exact fun member => wires.fresh (List.mem_append_right _ member)
  have elseFresh : block.elseLabel ∉ state.owned := by
    rw [elseLabelled]
    exact fun member => first.fresh (List.mem_append_right _ member)
  have apart : block.elseLabel ≠ block.label := by
    rw [labelled, elseLabelled]
    simp [Code.newLabel]
  have entered : Wires idle [] [block.elseLabel, block.label] lands
      { state with
        output := { state.output with code := state.output.code.newLabel.2.newLabel.2 }
        blocks := block :: state.blocks } := by
    rw [labelled, elseLabelled]
    apply second.enter
    · rw [labelled, elseLabelled]
      simp only [Code.newLabel, Array.size_push]
      omega
    · exact ⟨fresh, elseFresh, apart.symm⟩
    · rw [labelled]
      simp
    · intro reached other member
      obtain ⟨parent, outer, opened⟩ := List.exists_cons_of_ne_nil (List.ne_nil_of_mem member)
      have nested := wires.nested
      dsimp only at member
      rw [opened] at nested member
      exact nested.all (reach.mp reached parent outer opened) other member
  refine ⟨block, rfl, kinds, reach, rfl, ?_, ?_, apart⟩
  · apply entered.reclaim
    intro _ other member _ equal
    cases List.mem_cons.mp member with
    | inl here => exact absurd (here ▸ equal).symm apart
    | inr there =>
      apply absurd _ elseFresh
      exact Compilation.mem_owned.mpr (.inl ⟨other, there, .inl equal.symm⟩)
  · intro other member equal
    exact fresh (Compilation.mem_owned.mpr (.inl ⟨other, member, .inl equal.symm⟩))

theorem enter_wires (kind : BlockKind) (instr : Instr) (wires : Wires idle [] [] lands state) :
    Ensures (enter kind instr) subject state fun _ after =>
      ∃ block, Opens idle lands state kind block after := by
  unfold enter
  refine ensures_ite.mpr ⟨fun _ => ensures_bind.mpr ensures_throw, fun _ => ?_⟩
  rw [ensures_bind, ensures_get]
  exact openBlock_wires kind instr.results (fun _ => ⟨rfl, rfl, rfl, rfl⟩) wires

theorem Opens.ending {kind : BlockKind} {block : Block} {after : Compilation}
    (opens : Opens idle lands state kind block after) {landing : Landing}
    (ending : Ending idle state.blocks landing) : Ending idle (block :: state.blocks) landing := by
  cases ending with
  | inl asleep => exact .inl asleep
  | inr awake =>
    obtain ⟨parent, outer, opened, reached⟩ := awake
    refine .inr ⟨block, state.blocks, rfl, opens.reach.mpr ?_⟩
    intro other others same
    rw [opened] at same
    cases same
    exact reached

theorem lowerBlock_between (instr : Instr) (between : Between idle subject state) :
    Ensures (lowerBlock instr) subject state fun _ after => Between idle subject after := by
  unfold lowerBlock
  refine (enter_wires .block instr between).andThen ?_
  rintro _ entered ⟨block, opens⟩
  have inside : Between idle subject entered := by
    unfold Between
    rw [opens.blocks]
    exact (opens.forget (by simp)).mono fun _ => opens.ending
  exact (between_record _ subject entered inside).mono fun _ _ kept => kept.1

theorem lowerLoop_between (instr : Instr) (between : Between idle subject state) :
    Ensures (lowerLoop instr) subject state fun _ after => Between idle subject after := by
  unfold lowerLoop
  refine (enter_wires .loop instr between).andThen ?_
  rintro _ entered ⟨block, opens⟩
  have within : Within idle [] [block.label] (Ending idle (block :: state.blocks)) 0
      (block :: state.blocks) subject entered :=
    ⟨opens.wires.mono fun _ => opens.ending, Nat.zero_le _, opens.blocks⟩
  refine (Keeps.through .spillLocals subject entered within).andThen ?_
  rintro _ spilled ⟨within, _⟩
  refine (within_record _ subject spilled within).andThen ?_
  rintro _ started ⟨within, _⟩
  refine (innermost_finds within.blocks).andThen ?_
  rintro block started ⟨rfl, rfl⟩
  rw [ensures_bind]
  have known : block.label.index < started.output.code.labels.size := by
    apply within.wires.known
    rw [List.nil_append, Compilation.mem_owned]
    exact .inl ⟨block, within.blocks ▸ List.mem_cons_self, .inl rfl⟩
  refine (bind_fixes 0 within.wires known).mono ?_
  rintro _ bound ⟨fixed, looped, blocks, _⟩
  rw [ensures_bind, ensures_get]
  refine ensures_modifyBlock.mpr (Between.modifyBlock ?_ ?_ ?_)
  · unfold Between
    rw [blocks, within.blocks]
    apply ((fixed.reclaim looped).reclaim looped).mono
    intro landing ending
    exact ending.resolve_right fun waits => waits.2.1 List.mem_cons_self
  · exact fun _ => .of_kind rfl rfl rfl id
  · exact fun _ => rfl

theorem usable_elseLabel {block parent : Block} {outer : List Block}
    (wires : Wires idle [] [] lands state) (opened : state.blocks = block :: parent :: outer)
    (kind : block.kind = .ifThen)
    (awake : ∀ offset, state.output.code.size ≤ offset → ¬ idle offset →
      parent.isReached = true) :
    Wires.Usable state idle [] [] [block.elseLabel] := by
  have member : block ∈ state.blocks := opened ▸ List.mem_cons_self
  have owned : block.elseLabel ∈ state.owned :=
    Compilation.mem_owned.mpr (.inl ⟨block, member, .inr rfl⟩)
  have apart := wires.labels_differ opened
  intro _ label listed
  rw [List.mem_singleton.mp listed]
  refine ⟨wires.known _ (List.mem_append_right _ owned), .inr ?_⟩
  intro field far behind
  refine ⟨far, List.not_mem_nil, .inr (.inr ⟨0, block, parent, ?_, ?_, .inr ⟨kind, rfl⟩, ?_⟩)⟩
  · rw [opened]
    rfl
  · rw [opened]
    rfl
  · intro live
    exact ⟨awake field.site behind live, fun same => absurd same apart⟩

theorem lowerIf_between {parent : Block} {outer : List Block} (instr : Instr)
    (between : Between idle subject state) (opened : state.blocks = parent :: outer)
    (awake : ∀ offset, state.output.code.size ≤ offset → ¬ idle offset →
      parent.isReached = true) :
    Ensures (lowerIf instr) subject state fun _ after => Between idle subject after := by
  unfold lowerIf
  refine (expect_top .i32).andThen ?_
  rintro _ state ⟨rfl, _⟩
  refine (Keeps.through (.popRegister _) subject state (between.within opened)).andThen ?_
  rintro condition popped ⟨within, _⟩
  refine (enter_wires .ifThen instr within.wires).andThen ?_
  rintro _ entered ⟨block, opens⟩
  have blocks : entered.blocks = block :: parent :: outer := by
    rw [opens.blocks, within.blocks]
  have later : state.output.code.size ≤ entered.output.code.size := by
    rw [opens.size]
    exact within.later
  have inside : Within idle [] [] (Ending idle (block :: parent :: outer))
      state.output.code.size (block :: parent :: outer) subject entered := by
    refine ⟨(opens.forget (by simp)).mono ?_, later, blocks⟩
    intro landing ending
    rw [← within.blocks] at ending ⊢
    exact opens.ending ending
  refine (within_record _ subject entered inside).andThen ?_
  rintro _ started ⟨within, _⟩
  refine (innermost_finds within.blocks).andThen ?_
  rintro block started ⟨rfl, rfl⟩
  rw [ensures_bind]
  have usable := usable_elseLabel within.wires within.blocks opens.kind fun offset behind =>
    awake offset (Nat.le_trans within.later behind)
  refine (jump_wires (compareAndJump_ne_nil _ _ _ _ _) (Sequence.resolves_compareAndJump (by decide) _ _ _ (by simp))
    within.wires usable).mono ?_
  rintro _ tested ⟨wires, _⟩
  rw [ensures_bind, ensures_get]
  refine ensures_modifyBlock.mpr (Between.modifyBlock (wires.mono ?_) ?_ ?_)
  · exact fun _ => False.elim
  · exact fun _ => .of_kind rfl rfl rfl id
  · exact fun _ => rfl

section Else

variable {block : Block} {outer : List Block}

/-- What is known of the wires where an else arm begins. -/
structure Arms (idle : Nat → Prop) (extra : List Label) (block : Block) (outer : List Block)
    (arm parent : Block) (after : Compilation) : Prop where
  blocks : after.blocks = arm :: outer
  around : outer[0]? = some parent
  label : arm.label = block.label
  kind : arm.kind = .elseArm
  endReached : arm.endReached = block.endReached
  wires : Wires idle extra [] (Ending idle (arm :: outer)) after

theorem startArm_wires (subject : Subject) (layout : Layout)
    (wires : Wires idle extra [] lands state)
    (opened : state.blocks = block :: outer)
    (further : block.elseLabel ∉ extra) (ends : ∀ landing, lands landing → idle landing.site) :
    Ensures (startArm block.elseLabel layout) subject state fun _ after =>
      ∃ arm parent, Arms idle extra block outer arm parent after := by
  have member : block ∈ state.blocks := opened ▸ List.mem_cons_self
  have known : block.elseLabel.index < state.output.code.labels.size := by
    apply wires.known
    exact List.mem_append_right _ (Compilation.mem_owned.mpr (.inl ⟨block, member, .inr rfl⟩))
  obtain ⟨fixed, bound⟩ := wires.bind known
  unfold startArm
  rw [ensures_bind, ensures_modifyBlock, opened, List.modify_zero_cons, ensures_bind]
  -- the label is fixed before the block becomes an else arm, as far as the wires go
  have changed : Wires idle extra [block.elseLabel] (fun landing => lands landing ∨
      state.Accepts idle extra [] ⟨landing.toField, block.elseLabel⟩)
      { state with
        output := state.output.emit [.bind (.label block.elseLabel)]
        blocks := { block with kind := .elseArm } :: outer } := by
    have alike : ∀ inner, state.blocks[0]? = some inner →
        Wires.Alike [block.elseLabel] inner { inner with kind := .elseArm } := by
      intro inner found
      rw [opened] at found
      cases found
      refine ⟨rfl, rfl, ?_, by simp, id⟩
      intro target present waits
      cases waits with
      | inl label => exact .inl ⟨by simp, label.2⟩
      | inr elseLabel => exact absurd (List.mem_singleton.mpr elseLabel.2) present
    have modified := fixed.modifyBlock alike fun _ _ => .inl rfl
    dsimp only at modified
    rw [opened, List.modify_zero_cons] at modified
    exact modified
  have places : Ensures (bind block.elseLabel 0) subject
      { state with blocks := { block with kind := .elseArm } :: outer } fun _ after =>
      after.blocks = { block with kind := .elseArm } :: outer ∧
        Wires idle extra [block.elseLabel] (fun landing => lands landing ∨
          state.Accepts idle extra [] ⟨landing.toField, block.elseLabel⟩) after ∧
        Wires.Looped after block.elseLabel := by
    apply ensures_machine
    intro events
    refine ensures_emit.mpr fun events => ⟨rfl, changed.congr rfl rfl rfl, ?_⟩
    intro fine _ _ _ _
    exact bound fine
  refine places.mono ?_
  rintro _ after ⟨blocks, placed, looped⟩
  unfold blockAt
  rw [ensures_bind, ensures_bind, ensures_get, blocks]
  split
  · rename_i parent found
    obtain ⟨rest, rfl⟩ : ∃ rest, outer = parent :: rest := by
      cases outer with
      | nil => cases found
      | cons first rest =>
        cases found
        exact ⟨rest, rfl⟩
    rw [ensures_pure, ensures_bind, ensures_modifyLayout, ensures_modifyBlock]
    let arm : Block :=
      { block with
        kind := .elseArm
        elseLayout := none
        reach := parent.innerReach
        pending := block.elseBody }
    have alive : arm.isReached = true ↔ parent.isReached = true := by
      simp only [arm, Block.isReached, Block.innerReach]
      split
      · simp_all
      · simp_all
    refine ⟨arm, parent, ?_, rfl, rfl, rfl, rfl, ?_⟩
    · dsimp only
      rw [blocks, List.modify_zero_cons]
    have nested := wires.nested
    rw [opened] at nested
    have modified : Wires idle extra []
        (fun landing => lands landing ∨
          state.Accepts idle extra [] ⟨landing.toField, block.elseLabel⟩)
        { after with
          blocks := after.blocks.modify 0 fun block =>
            { block with
              elseLayout := none
              reach := parent.innerReach
              pending := block.elseBody } } := by
      apply (placed.reclaim looped).modifyBlock
      · intro inner _
        exact .of_kind rfl rfl rfl id
      · intro inner found
        rw [blocks] at found ⊢
        cases found
        exact .inr ⟨rfl, fun reached => nested.tail.all (alive.mp reached)⟩
    refine Wires.congr (modified.mono ?_) rfl rfl rfl
    intro landing leads
    by_cases asleep : idle landing.site
    · exact .inl asleep
    · have accepts := leads.resolve_left fun lands => asleep (ends landing lands)
      have inside := wires.accepts_inner opened accepts (.inr rfl) further asleep
      exact .inr ⟨arm, parent :: rest, rfl, alive.mpr inside.1⟩
  · exact ensures_throw

theorem Arms.between {arm parent : Block} {after : Compilation}
    (arms : Arms idle [] block outer arm parent after) : Between idle subject after := by
  unfold Between
  rw [arms.blocks]
  exact arms.wires

theorem Arms.drop {arm parent : Block} {after : Compilation}
    (arms : Arms idle [label] block outer arm parent after) (same : block.label = label)
    (reached : parent.isReached = true) (ended : block.endReached = true) :
    Between idle subject after := by
  unfold Between
  rw [arms.blocks]
  apply arms.wires.drop
  intro use here far stays _ _
  refine ⟨far, stays, .inr (.inr ⟨0, arm, parent, ?_, ?_, .inl ⟨?_, ?_⟩, ?_⟩)⟩
  · rw [arms.blocks]
    rfl
  · rw [arms.blocks]
    exact arms.around
  · simp [arms.kind]
  · rw [arms.label, same]
    exact here
  · intro _
    exact ⟨reached, fun _ => arms.endReached.trans ended⟩

theorem lowerElse_between (between : Between idle subject state) :
    Ensures lowerElse subject state fun _ after => Between idle subject after := by
  rw [lowerElse_eq]
  unfold innermost
  rw [ensures_bind, ensures_bind, ensures_get]
  split
  · rename_i block outer opened
    rw [ensures_pure]
    refine ensures_ite.mpr ⟨fun _ => ensures_bind.mpr ensures_throw, fun _ => ?_⟩
    refine ensures_ite.mpr ⟨fun reached => ?_, fun dead => ?_⟩
    · rw [ensures_bind, ensures_get]
      have live := between.live opened reached
      have finish : ∀ join : Layout, Ensures (joinArms block state.layout join) subject state
          fun _ after => Between idle subject after := by
        intro join
        unfold joinArms
        rw [ensures_bind, ensures_modifyBlock, ensures_bind]
        have joined : Live idle [] [] anything subject
            { state with blocks := state.blocks.modify 0 ({ · with join }) } :=
          live.modifyBlock (fun _ => .of_kind rfl rfl rfl id) fun _ => rfl
        refine ((Keeps.through (.mergeAll False.elim) subject _ joined).and
          ((Idle.mergeAll _ _).ensures fun _ _ _ same => same)).mono ?_
        rintro _ merged ⟨⟨live, _⟩, blocks⟩
        dsimp only at blocks
        rw [opened, List.modify_zero_cons] at blocks
        have owned : block.label ∈ merged.owned := by
          rw [Compilation.mem_owned, blocks]
          exact .inl ⟨_, List.mem_cons_self, .inl rfl⟩
        have known := live.wires.known _ (List.mem_append_right _ owned)
        have allowed := live.allow known List.not_mem_nil
        have usable := Wires.usable_extra allowed.wires List.mem_cons_self List.not_mem_nil
        refine (branch_live 0 allowed usable).andThen ?_
        rintro _ jumped ⟨live, same⟩
        rw [ensures_bind, ensures_modifyBlock]
        have marked : Live idle [block.label] [] Code.nowhere subject
            { jumped with blocks := jumped.blocks.modify 0 ({ · with endReached := true }) } :=
          live.modifyBlock (fun _ => .of_kind rfl rfl rfl fun _ => rfl) fun _ => rfl
        have opened : jumped.blocks.modify 0 ({ · with endReached := true }) =
            { block with join, endReached := true } :: outer := by
          rw [same, blocks, List.modify_zero_cons]
        have differ := marked.wires.labels_differ opened
        have starts := startArm_wires subject (block.elseLayout.getD {}) marked.wires opened
          (fun member => differ (List.mem_singleton.mp member)) fun _ => False.elim
        refine starts.mono ?_
        rintro _ after ⟨arm, parent, arms⟩
        refine Arms.drop arms rfl (marked.reached parent ?_) rfl
        dsimp only
        rw [opened]
        exact List.mem_cons_of_mem _ (List.mem_of_getElem? arms.around)
      refine ensures_ite.mpr ⟨fun _ => ?_, fun _ => ?_⟩
      · exact ensures_bind.mpr (ensures_pure.mpr (finish block.join))
      · refine (initJoin_finds _ _ _).andThen ?_
        rintro join state ⟨rfl, _⟩
        exact finish join
    · refine Ensures.mono (startArm_wires _ _ between opened (by simp) ?_) ?_
      · intro landing ending
        exact (opened ▸ ending).asleep (by simpa using dead)
      · rintro _ after ⟨arm, parent, arms⟩
        exact arms.between
  · exact ensures_throw

end Else

section End

variable {block parent : Block} {outer : List Block}

/-- Where the end of a block is reached, the code behind it is executed. -/
def Closing (idle : Nat → Prop) (block parent : Block) (landing : Landing) : Prop :=
  idle landing.site ∨
    (block.isReached || block.endReached || block.isOneArmed) = true ∧ parent.isReached = true

/-- What is known of the wires where a nested block ends: jumps to its label may have been added,
and its else arm has been passed. -/
structure Settles (idle : Nat → Prop) (extra gone : List Label) (block parent : Block)
    (outer : List Block) (subject : Subject) (state : Compilation) : Prop where
  within : Within idle extra gone (Closing idle block parent) 0 (block :: parent :: outer) subject
    state
  added : ∀ label ∈ extra, label = block.label ∧ block.isReached = true ∧ block.kind ≠ .loop
  passed : ∀ label ∈ gone, label = block.elseLabel
  armed : block.kind = .ifThen → block.elseLabel ∈ gone

theorem passArm_wires (wires : Wires idle extra [] (Closing idle block parent) state)
    (opened : state.blocks = block :: parent :: outer) (kind : block.kind = .ifThen)
    (further : block.elseLabel ∉ extra) {rest : Compile Unit}
    (calm : Keeps (Within idle extra [block.elseLabel] (Closing idle block parent) 0
      (block :: parent :: outer)) rest anything) :
    Ensures (do
      bind block.elseLabel 0
      rest) subject state fun _ after =>
      Within idle extra [block.elseLabel] (Closing idle block parent) 0 (block :: parent :: outer)
        subject after := by
  have member : block ∈ state.blocks := opened ▸ List.mem_cons_self
  have known : block.elseLabel.index < state.output.code.labels.size := by
    apply wires.known
    exact List.mem_append_right _ (Compilation.mem_owned.mpr (.inl ⟨block, member, .inr rfl⟩))
  refine (bind_fixes 0 wires known).andThen ?_
  rintro _ bound ⟨fixed, _, blocks, _⟩
  refine (calm subject bound ⟨fixed.mono ?_, Nat.zero_le _, blocks.trans opened⟩).mono ?_
  · rintro landing (closing | accepts)
    · exact closing
    · by_cases asleep : idle landing.site
      · exact .inl asleep
      · have inside := wires.accepts_inner opened accepts (.inr rfl) further asleep
        exact .inr ⟨by simp [Block.isOneArmed, kind], inside.1⟩
  · exact fun _ _ kept => kept.1

theorem finishOneArmed_settles (between : Between idle subject state)
    (opened : state.blocks = block :: parent :: outer) (kind : block.kind = .ifThen) :
    Ensures (finishOneArmed block) subject state fun _ after =>
      ∃ extra gone, Settles idle extra gone block parent outer subject after := by
  have skip : ∀ {extra : List Label} (join layout : Layout) (middle : Compilation),
      Wires idle extra [] (Closing idle block parent) middle →
      middle.blocks = block :: parent :: outer → block.elseLabel ∉ extra →
      (∀ label ∈ extra, label = block.label ∧ block.isReached = true ∧ block.kind ≠ .loop) →
      Ensures (finishArm block layout join) subject middle fun _ after =>
        ∃ extra gone, Settles idle extra gone block parent outer subject after := by
    intro extra join layout middle wires blocks further added
    refine Ensures.mono (passArm_wires wires blocks kind further (.ite ?_ ?_)) ?_
    · exact (Keeps.through (.mergeAll False.elim)).andThen fun _ => within_calm.modifyLayout _
    · exact within_calm.modifyLayout _
    · intro _ after within
      exact ⟨extra, [block.elseLabel], within, added, by simp, by simp⟩
  have finish : ∀ join layout : Layout,
      Ensures (joinMissing block layout join) subject state fun _ after =>
      ∃ extra gone, Settles idle extra gone block parent outer subject after := by
    intro join layout
    refine ensures_ite.mpr ⟨fun reached => ?_, fun dead => ?_⟩
    · have live := between.live opened reached
      rw [ensures_bind, ensures_get, ensures_bind]
      refine ((Keeps.through (.mergeAll False.elim) subject _ live).and
        ((Idle.mergeAll _ _).ensures fun _ _ _ same => same)).mono ?_
      rintro _ merged ⟨⟨live, _⟩, blocks⟩
      rw [opened] at blocks
      have owned : block.label ∈ merged.owned := by
        rw [Compilation.mem_owned, blocks]
        exact .inl ⟨_, List.mem_cons_self, .inl rfl⟩
      have known := live.wires.known _ (List.mem_append_right _ owned)
      have allowed := live.allow known List.not_mem_nil
      have usable := Wires.usable_extra allowed.wires List.mem_cons_self List.not_mem_nil
      refine (branch_live 0 allowed usable).andThen ?_
      rintro _ jumped ⟨live, same⟩
      have differ := live.wires.labels_differ (same.trans blocks)
      apply skip join layout jumped (live.wires.mono fun _ => False.elim) (same.trans blocks)
      · exact fun member => differ (List.mem_singleton.mp member)
      · intro label member
        exact ⟨List.mem_singleton.mp member, reached, by simp [kind]⟩
    · apply skip join layout state (Wires.mono between ?_) opened List.not_mem_nil
      · intro label member
        cases member
      · intro landing ending
        exact .inl ((opened ▸ ending).asleep (by simpa using dead))
  rw [finishOneArmed_eq]
  refine ensures_ite.mpr ⟨fun _ => ensures_bind.mpr ensures_throw, fun _ => ?_⟩
  refine ensures_ite.mpr ⟨fun _ => ?_, fun _ => ?_⟩
  · refine (initJoin_finds _ _ _).andThen ?_
    rintro join state ⟨rfl, _⟩
    exact finish join _
  · exact ensures_bind.mpr (ensures_pure.mpr (finish block.join _))

theorem settleEnd_settles (between : Between idle subject state)
    (opened : state.blocks = block :: parent :: outer) :
    Ensures (settleEnd block) subject state fun _ after =>
      ∃ extra gone, Settles idle extra gone block parent outer subject after := by
  have within : Within idle [] [] (Closing idle block parent) 0 (block :: parent :: outer) subject
      state := by
    refine ⟨Wires.mono between ?_, Nat.zero_le _, opened⟩
    intro landing ending
    cases reached : block.isReached with
    | true =>
      have nested := between.nested
      rw [opened] at nested
      refine .inr ⟨by simp [reached], nested.all reached parent ?_⟩
      exact List.mem_cons_of_mem _ List.mem_cons_self
    | false => exact .inl ((opened ▸ ending).asleep reached)
  unfold settleEnd
  refine ensures_ite.mpr ⟨fun oneArmed => ?_, fun twoArmed => ?_⟩
  · exact finishOneArmed_settles between opened (by simpa [Block.isOneArmed] using oneArmed)
  · refine Ensures.mono ((?_ : Keeps (Within idle [] [] (Closing idle block parent) 0
      (block :: parent :: outer)) _ anything) subject state within) ?_
    · refine .ite ?_ (.ite (.ite ?_ (within_calm.modifyLayout _)) ?_)
      · refine (within_calm.modifyLayout _).andThen fun _ => ?_
        refine Keeps.andThen (.forIn ?_) fun _ => .done
        intro type _
        refine Keeps.get.andThen fun state => (within_calm.needSlot _).andThen fun _ => ?_
        exact (within_calm.modifyLayout _).andThen fun _ => .pure rfl
      · refine Keeps.get.andThen fun state => ?_
        refine (Keeps.through (.mergeAll False.elim)).andThen fun _ => ?_
        exact within_calm.modifyLayout _
      · exact Keeps.get.andThen fun _ => .ite .throw .done
    · rintro _ after ⟨within, _⟩
      refine ⟨[], [], within, by simp, by simp, ?_⟩
      intro kind
      exact absurd (by simpa [Block.isOneArmed] using kind) twoArmed

theorem close_between {final : List Label}
    (wires : Wires idle extra final (Closing idle block parent) state)
    (opened : state.blocks = block :: parent :: outer)
    (added : ∀ label ∈ extra, label ∈ final)
    (passed : ∀ label ∈ final, label = block.label ∨ label = block.elseLabel)
    (fixed : ∀ target, block.Awaits target → target ∈ final) :
    Ensures (leaveBlock block) subject state fun _ after => Between idle subject after := by
  have distinct := wires.distinct
  rw [Compilation.owned, opened] at distinct
  have closed := wires.close opened fun _ => fixed
  have apart : ∀ label ∈ final,
      label ∉ Compilation.owned { state with blocks := parent :: outer } := by
    intro label member owned
    rcases passed label member with rfl | rfl
    · exact (List.nodup_cons.mp distinct).1 (List.mem_cons_of_mem _ owned)
    · exact (List.nodup_cons.mp distinct.of_cons).1 owned
  have forgotten := (closed.dropAll added).reclaimAll apart
  unfold leaveBlock closeBlock
  rw [ensures_bind, ensures_modify, opened, List.tail_cons]
  refine ensures_modifyBlock.mpr (Wires.mono (forgotten.modifyBlock ?_ ?_) ?_)
  · intro inner _
    split
    · exact .of_kind rfl rfl rfl id
    · exact .of_kind rfl rfl rfl id
  · intro inner _
    split
    · refine .inr ⟨rfl, ?_⟩
      intro reached
      cases reached
    · exact .inl rfl
  · rintro landing (asleep | ⟨continues, reached⟩)
    · exact .inl asleep
    · refine .inr ⟨parent, outer, ?_, reached⟩
      dsimp only
      rw [List.modify_zero_cons, continues]
      rfl

theorem endBlock_between (between : Between idle subject state)
    (opened : state.blocks = block :: parent :: outer) :
    Ensures (endBlock block) subject state fun _ after => Between idle subject after := by
  rw [endBlock_eq]
  refine (settleEnd_settles between opened).andThen ?_
  rintro _ settled ⟨extra, gone, within, added, passed, armed⟩
  refine (within_record _ subject settled within).andThen ?_
  rintro _ recorded ⟨⟨wires, _, blocks⟩, _⟩
  refine ensures_ite.mpr ⟨fun kind => ?_, fun loop => ?_⟩
  · have known : block.label.index < recorded.output.code.labels.size := by
      apply wires.known
      apply List.mem_append_right
      rw [Compilation.mem_owned, blocks]
      exact .inl ⟨block, List.mem_cons_self, .inl rfl⟩
    refine (bind_fixes 0 wires known).andThen ?_
    rintro _ bound ⟨fixed, _, same, _⟩
    have closing : Wires idle extra (block.label :: gone) (Closing idle block parent) bound := by
      apply fixed.mono
      rintro landing (closing | accepts)
      · exact closing
      · by_cases asleep : idle landing.site
        · exact .inl asleep
        by_cases listed : block.label ∈ extra
        · have reached := (added _ listed).2.1
          have nested := wires.nested
          rw [blocks] at nested
          refine .inr ⟨by simp [reached], nested.all reached parent ?_⟩
          exact List.mem_cons_of_mem _ List.mem_cons_self
        · have inside := wires.accepts_inner blocks accepts (.inl rfl) listed asleep
          exact .inr ⟨by simp [inside.2 rfl], inside.1⟩
    apply close_between closing (same.trans blocks)
    · intro label member
      exact (added label member).1 ▸ List.mem_cons_self
    · intro label member
      cases List.mem_cons.mp member with
      | inl here => exact .inl here
      | inr there => exact .inr (passed label there)
    · rintro target (⟨_, rfl⟩ | ⟨arms, rfl⟩)
      · exact List.mem_cons_self
      · exact List.mem_cons_of_mem _ (armed arms)
  · have loops : block.kind = .loop := Decidable.not_not.mp loop
    apply close_between wires blocks
    · intro label member
      exact absurd loops (added label member).2.2
    · intro label member
      exact .inr (passed label member)
    · rintro target (⟨different, _⟩ | ⟨arms, _⟩)
      · exact absurd loops different
      · rw [loops] at arms
        cases arms

theorem endFunction_between {block : Block} (between : Between idle subject state)
    (opened : state.blocks = [block]) :
    Ensures (endFunction block) subject state fun _ after => Between idle subject after := by
  have close : ∀ {lands : Landing → Prop} (middle : Compilation),
      Within idle [] [] lands 0 [block] subject middle →
      (∀ landing, lands landing → idle landing.site) →
      Ensures (do
        record (.controlEnd block.kind)
        closeBlock) subject middle fun _ after => Between idle subject after := by
    intro lands middle within ends
    refine (within_record _ subject middle within).andThen ?_
    rintro _ recorded ⟨within, _⟩
    unfold closeBlock
    rw [ensures_modify, within.blocks, List.tail_cons]
    apply (within.wires.close within.blocks (by simp)).mono
    intro landing leads
    exact .inl (ends landing leads)
  have within : Within idle [] [] (Ending idle [block]) 0 [block] subject state :=
    ⟨opened ▸ between, Nat.zero_le _, opened⟩
  unfold endFunction
  refine ensures_ite.mpr ⟨fun _ => ?_, fun dead => ?_⟩
  · rw [ensures_bind]
    have tests : Keeps (Within idle [] [] (Ending idle [block]) 0 [block]) (demandEndHeight block)
        anything := Keeps.get.andThen fun _ => .ite .throw .done
    refine (tests subject state within).mono ?_
    rintro _ tested ⟨within, _⟩
    refine (returnFromFunction_within within).andThen ?_
    intro _ returned within
    exact close returned within fun _ => False.elim
  · apply close state within
    intro landing ending
    apply ending.asleep
    rw [Block.isReached, Decidable.not_not.mp dead]
    rfl

theorem lowerEnd_between (between : Between idle subject state) :
    Ensures lowerEnd subject state fun _ after => Between idle subject after := by
  unfold lowerEnd innermost
  rw [ensures_bind, ensures_bind, ensures_get]
  split
  · rename_i block outer opened
    rw [ensures_pure, ensures_bind, ensures_get]
    cases outer with
    | nil =>
      refine ensures_ite.mpr ⟨fun _ => endFunction_between between opened, fun several => ?_⟩
      rw [opened] at several
      exact absurd rfl several
    | cons parent outer =>
      refine ensures_ite.mpr ⟨fun single => ?_, fun _ => endBlock_between between opened⟩
      rw [opened] at single
      cases single
  · exact ensures_throw

end End

/-- Every instruction and marker that is lowered keeps the wires, where code is executed and
where it is compiled for its types only.  Markers do so in dead code as well. -/
theorem lower_between {block : Block} {outer : List Block} {op : Opcode} (instr : Instr)
    (books : Books subject state) (between : Between idle subject state)
    (opened : state.blocks = block :: outer)
    (alive : block.reach = .unreachable → op = .finish ∨ op = .otherwise)
    (asleep : block.reach = .specOnly → ∀ offset, state.output.code.size ≤ offset → idle offset) :
    Ensures (lower op instr) subject state fun _ after => Between idle subject after := by
  have awake : op ≠ .finish → op ≠ .otherwise → ∀ offset, state.output.code.size ≤ offset →
      ¬ idle offset → block.isReached = true := by
    intro goesOn noArm offset behind live
    cases reach : block.reach with
    | reachable => simp [Block.isReached, reach]
    | specOnly => exact absurd (asleep reach offset behind) live
    | unreachable => exact ((alive reach).elim goesOn noArm).elim
  cases plain : op.isPlain with
  | true =>
    apply plain_between plain instr books between
    intro landing behind
    by_cases live : idle landing.site
    · exact .inl live
    · refine .inr ⟨block, outer, opened, awake ?_ ?_ landing.site behind live⟩
      · rintro rfl
        cases plain
      · rintro rfl
        cases plain
  | false =>
    cases op
    case unreachable => exact lowerUnreachable_between between
    case block => exact lowerBlock_between instr between
    case loop => exact lowerLoop_between instr between
    case branchIf => exact lowerIf_between instr between opened (awake (by simp) (by simp))
    case otherwise => exact lowerElse_between between
    case finish => exact lowerEnd_between between
    case br => exact lowerBr_between _ between opened
    case brIf => exact lowerBrIf_between _ between opened
    case brTable => exact lowerBrTable_between instr between opened
    case ret => exact return_between between
    all_goals cases plain

end Compile

end WasmX64
