import WasmX64.Proofs.Compile.Books
import WasmX64.Proofs.Typing.Constructs

/-!
# The books of control constructs

A join that is laid out for control with a sound layout is sound, so the layouts that
blocks save, and those taken over from them, are sound as well.
-/

namespace WasmX64

theorem Layout.initJoin_sound {locals arity : Nat} {base : Int} {source join : Layout}
    (sound : source.Sound) (floor : (locals : Int) ≤ base)
    (runs : initJoin locals source arity { base } = .ok () join) :
    join.Sound ∧ join.base = base ∧ locals ≤ join.height := by
  obtain ⟨base, rfl⟩ := Int.eq_ofNat_of_zero_le (show 0 ≤ base by omega)
  have localsBelow : locals ≤ base := by omega
  obtain ⟨_, _, room, _⟩ := initJoin_typed localsBelow runs rfl
  obtain ⟨other, same, joins⟩ := initJoin_joins sound localsBelow room
  rw [runs] at same
  cases same
  refine ⟨joins.sound, joins.startsAt, ?_⟩
  rw [joins.height]
  omega

namespace Block.Kept

variable {locals : Nat} {block : Block}

theorem reach_end (kept : block.Kept locals) {join : Layout} (sound : join.Sound)
    (startsAt : join.base = block.base) (tall : locals ≤ join.height) :
    ({ block with join, endReached := true } : Block).Kept locals :=
  ⟨kept.floor, startsAt, sound, fun _ => tall, (by simp), kept.loops, kept.saved, kept.armed⟩

theorem mark (kept : block.Kept locals) {join : Layout} (sound : join.Sound)
    (startsAt : join.base = block.base) (tall : block.kind ≠ .loop → locals ≤ join.height)
    (loops : block.kind = .loop → join = block.join) :
    (Block.markTarget { block with join }).Kept locals := by
  unfold Block.markTarget
  split
  · rename_i kind
    cases loops kind
    exact ⟨kept.floor, kept.startsAt, kept.sound, kept.tall, kept.fresh, fun _ => rfl,
      kept.saved, kept.armed⟩
  · rename_i kind
    exact kept.reach_end sound startsAt (tall kind)

end Block.Kept

namespace Compile

variable {α : Type} {subject : Subject} {state : Compilation}

theorem Idle.ensures {action : Compile α} (idle : Idle action)
    {post : α → Compilation → Prop}
    (meets : ∀ value after, after.layout = state.layout → after.blocks = state.blocks →
      post value after) : Ensures action subject state post := by
  refine (idle state.layout state.blocks subject state ⟨rfl, rfl⟩).mono ?_
  intro value after kept
  exact meets value after kept.1.1 kept.1.2

theorem Idle.returnFromFunction : Idle returnFromFunction := by
  have leave : Idle (Compile.machine { kind := .ret } (Compile.emit Sequence.epilogue)) :=
    machine (emit _)
  refine read.andThen fun subject => get.andThen fun state => innermost.andThen fun block => ?_
  refine ite (throw.andThen fun _ => ?_) ?_
  all_goals
    dsimp only
    split
    · exact leave
    · refine (expect 0 _).andThen fun _ => ?_
      split
      · exact throw.andThen fun _ => leave
      · exact (transfer _ _).andThen fun _ => leave

theorem keeps_finishBlock : Keeps Books finishBlock anything := by
  apply keeps_modifyBlock
  intro locals block kept
  exact kept_reach kept _

theorem initJoin_lays (arity : Nat) {join source : Layout} {base : Int}
    (floor : (subject.locals : Int) ≤ base) (fresh : join = { base }) (sound : source.Sound) :
    Ensures (initJoin join source arity) subject state fun laid after =>
      after = state ∧ laid.Sound ∧ laid.base = base ∧ subject.locals ≤ laid.height := by
  refine (initJoin_finds join source arity).mono ?_
  intro laid after runs
  obtain ⟨same, runs⟩ := runs
  rw [fresh] at runs
  exact ⟨same, Layout.initJoin_sound sound floor runs⟩

theorem keeps_branchTo (depth : Nat) : Keeps Books (branchTo depth) anything := by
  intro subject state books
  unfold branchTo
  refine (target_finds depth).andThen ?_
  intro block after finds
  obtain ⟨rfl, found⟩ := finds
  rw [ensures_bind, ensures_get]
  have kept := books.blocks block (List.mem_of_getElem? found)
  have finish : ∀ join : Layout, (Block.markTarget { block with join }).Kept subject.locals →
      Ensures (do
        modifyBlock depth ({ · with join })
        mergeBranch join after.layout block.branchArity
        branch block.label depth
        modifyBlock depth Block.markTarget) subject after
        fun value final => Books subject final ∧ anything value := by
    intro join marked
    rw [ensures_bind, ensures_modifyBlock, ensures_bind]
    refine (Idle.mergeBranch join after.layout block.branchArity).ensures ?_
    intro _ merged layout blocks
    rw [ensures_bind]
    refine (Idle.branch block.label depth).ensures ?_
    intro _ jumped sameLayout sameBlocks
    refine ensures_modifyBlock.mpr ⟨?_, trivial⟩
    apply Books.modify books
    · exact sameLayout.trans layout
    · dsimp only
      rw [sameBlocks, blocks, List.modify_modify_eq]
    · intro other here
      rw [found] at here
      cases here
      exact marked
  refine ensures_ite.mpr ⟨?_, ?_⟩
  · intro reached
    refine ensures_bind.mpr (ensures_pure.mpr (finish block.join ?_))
    apply kept.mark kept.sound kept.startsAt
    · intro kind
      rw [Block.targetReached, if_neg kind] at reached
      exact kept.tall reached
    · intro _
      rfl
  · intro fresh
    refine (initJoin_lays _ kept.floor (by rw [kept.startsAt]) books.sound).andThen ?_
    intro join final laid
    obtain ⟨rfl, sound, startsAt, tall⟩ := laid
    apply finish
    apply kept.mark sound startsAt (fun _ => tall)
    intro kind
    rw [Block.targetReached, if_pos kind] at fresh
    exact absurd (kept.loops kind) fresh

theorem keeps_target (depth : Nat) : Keeps Books (target depth) anything := by
  intro subject state books
  refine (target_finds depth).mono ?_
  intro block after finds
  obtain ⟨rfl, _⟩ := finds
  exact ⟨books, trivial⟩

theorem keeps_leavesFunction (depth : Nat) : Keeps Books (leavesFunction depth) anything :=
  Keeps.get.andThen fun _ => .pure trivial

theorem keeps_branchOrReturn (depth : Nat) : Keeps Books (branchOrReturn depth) anything :=
  (keeps_leavesFunction depth).andThen fun _ =>
    .ite (Books.idle .returnFromFunction) (keeps_branchTo depth)

theorem keeps_innermost : Keeps Books innermost anything := Books.idle .innermost

theorem keeps_lowerBr (depth : Nat) : Keeps Books (lowerBr depth) anything := by
  refine (keeps_target depth).andThen fun _ => keeps_innermost.andThen fun _ => ?_
  refine (keeps_leavesFunction depth).andThen fun _ => .ite ?_ keeps_finishBlock
  exact (keeps_branchOrReturn depth).andThen fun _ => keeps_finishBlock

theorem Books.dropTop (books : Books subject state)
    (above : subject.locals < state.layout.height) :
    Books subject { state with layout := state.layout.drop } := by
  apply books.relayout books.sound.drop
  rw [Layout.height_drop]
  omega

theorem keeps_lowerBrIf (depth : Nat) : Keeps Books (lowerBrIf depth) anything := by
  intro subject state books
  unfold lowerBrIf
  refine (target_finds depth).andThen ?_
  rintro _ after ⟨rfl, _⟩
  refine (expect_above books 0 .i32).andThen ?_
  rintro _ after ⟨rfl, above⟩
  refine innermost_same.andThen ?_
  rintro block after rfl
  refine ensures_ite.mpr ⟨?_, ?_⟩
  · intro _
    exact ensures_modifyLayout.mpr ⟨books.dropTop above, trivial⟩
  · intro _
    have jumps : Keeps Books (do
        let condition ← popRegister RegSet.empty
        let beyond ← newLabel
        branchIfZero beyond condition depth
        branchOrReturn depth
        bind beyond depth) anything := by
      refine (keeps_popRegister _).andThen fun condition => ?_
      refine (Books.idle .newLabel).andThen fun beyond => ?_
      refine (Books.idle (.branchIfZero _ _ _)).andThen fun _ => ?_
      exact (keeps_branchOrReturn depth).andThen fun _ => Books.idle (.bind _ _)
    exact jumps subject _ books

theorem keeps_lowerCase (cases : Array Label) (depth : Nat) :
    Keeps Books (lowerCase cases depth) anything := by
  unfold lowerCase
  split
  · exact .throw
  · refine Keeps.get.andThen fun state => ?_
    refine .ite (Books.idle (.branch _ _)) ?_
    exact (Books.idle (.bind _ _)).andThen fun _ => keeps_branchOrReturn depth

theorem keeps_lowerCases (cases : Array Label) (targets : Array UInt32) (value bound : Register)
    (fuel first last : Nat) :
    Keeps Books (lowerCases cases targets value bound fuel first last) anything := by
  induction fuel generalizing first last with
  | zero => exact .done
  | succ fuel ih =>
    rw [lowerCases]
    refine .ite (keeps_lowerCase cases _) ?_
    refine (Books.idle .newLabel).andThen fun upper => ?_
    refine (Books.idle (.emit _)).andThen fun _ => ?_
    refine (Books.idle (.branchIfAtLeast _ _ _)).andThen fun _ => ?_
    refine (ih first _).andThen fun _ => ?_
    exact (Books.idle (.bind _ _)).andThen fun _ => ih _ last

theorem keeps_demandTargets (wanted : Nat) (targets : List UInt32) :
    Keeps Books (demandTargets wanted targets) anything := by
  induction targets with
  | nil => exact .done
  | cons depth rest ih => exact (keeps_target _).andThen fun _ => .demand ih

theorem keeps_lowerBrTable (instr : Instr) : Keeps Books (lowerBrTable instr) anything := by
  intro subject state books
  unfold lowerBrTable
  refine (target_finds _).andThen ?_
  rintro default after ⟨rfl, _⟩
  refine (keeps_demandTargets _ _ subject _ books).andThen ?_
  rintro _ demanded ⟨books, _⟩
  refine (expect_above books 0 .i32).andThen ?_
  rintro _ after ⟨rfl, above⟩
  refine innermost_same.andThen ?_
  rintro block after rfl
  refine ensures_ite.mpr ⟨?_, ?_⟩
  · intro _
    rw [ensures_bind, ensures_modifyLayout]
    exact keeps_finishBlock subject _ (books.dropTop above)
  · intro _
    refine (?_ : Keeps Books _ anything) subject after books
    refine (keeps_popRegister _).andThen fun value => Keeps.get.andThen fun state => ?_
    refine (Keeps.mapM (fun _ => Books.idle .newLabel) _).andThen fun cases => ?_
    have last : Keeps Books (do
        lowerCase cases.toArray instr.default.toNat
        finishBlock) anything :=
      (keeps_lowerCase _ _).andThen fun _ => keeps_finishBlock
    refine .ite ?_ last
    refine (Books.keeps (stays_takeRegister _ _ _)).bind fun bound _ => ?_
    refine (Books.idle .newLabel).andThen fun beyond => ?_
    refine (Books.idle (.emit _)).andThen fun _ => ?_
    refine (Books.idle (.branchIfAtLeast _ _ _)).andThen fun _ => ?_
    refine (keeps_lowerCases _ _ _ _ _ _ _).andThen fun _ => ?_
    exact (Books.idle (.bind _ _)).andThen fun _ => last

theorem keeps_lowerUnreachable : Keeps Books lowerUnreachable anything :=
  (Books.idle (.addTrap _)).andThen fun _ => (Books.idle (.emit _)).andThen fun _ =>
    keeps_finishBlock

/-- What is known of a block that was opened at the height of a layout. -/
structure Entered (height : Nat) (kind : BlockKind) (block : Block) : Prop where
  kind : block.kind = kind
  base : block.base = height
  join : block.join = { base := height }
  endReached : block.endReached = false

theorem Entered.kept {height locals : Nat} {kind : BlockKind} {block : Block}
    (entered : Entered height kind block) (tall : locals ≤ height) (different : kind ≠ .loop)
    (saved : ∀ layout, block.elseLayout = some layout → layout.Sound ∧ locals ≤ layout.height)
    (armed : kind = .ifThen → block.elseLayout ≠ none) : block.Kept locals := by
  constructor
  · rw [entered.base]
    omega
  · rw [entered.join, entered.base]
  · rw [entered.join]
    exact Layout.sound_empty _
  · simp [entered.endReached]
  · intro _ _
    rw [entered.join, entered.base]
  · intro loop
    exact absurd (entered.kind.symm.trans loop) different
  · exact saved
  · rw [entered.kind]
    exact armed

theorem enter_entered (kind : BlockKind) (instr : Instr) :
    Ensures (enter kind instr) subject state fun _ after =>
      after.layout = state.layout ∧ ∃ block, after.blocks = block :: state.blocks ∧
        Entered state.layout.height kind block ∧ block.elseLayout = none := by
  unfold enter
  refine ensures_ite.mpr ⟨fun _ => ensures_bind.mpr ensures_throw, fun _ => ?_⟩
  rw [ensures_bind, ensures_get]
  refine (openBlock_opens _ _ _).mono ?_
  intro _ after opens
  obtain ⟨layout, label, elseLabel, blocks⟩ := opens
  exact ⟨layout, _, blocks, ⟨rfl, rfl, rfl, rfl⟩, rfl⟩

theorem Books.open (books : Books subject state) {after : Compilation} {block : Block}
    (sound : after.layout.Sound) (height : after.layout.height = state.layout.height)
    (blocks : after.blocks = block :: state.blocks) (kept : block.Kept subject.locals) :
    Books subject after := by
  constructor
  · exact sound
  · rw [height]
    exact books.tall
  · intro other member
    rw [blocks] at member
    cases member with
    | head => exact kept
    | tail _ before => exact books.blocks other before

theorem keeps_lowerBlock (instr : Instr) : Keeps Books (lowerBlock instr) anything := by
  intro subject state books
  unfold lowerBlock
  refine (enter_entered .block instr).andThen ?_
  intro _ opened enters
  obtain ⟨layout, block, blocks, entered, unarmed⟩ := enters
  refine Books.idle (.record _) subject opened ?_
  apply books.open (layout ▸ books.sound) (by rw [layout]) blocks
  apply entered.kept books.tall
  · simp
  · simp [unarmed]
  · simp

theorem keeps_lowerLoop (instr : Instr) : Keeps Books (lowerLoop instr) anything := by
  intro subject state books
  unfold lowerLoop
  refine (enter_entered .loop instr).andThen ?_
  intro _ opened enters
  obtain ⟨layout, block, blocks, entered, unarmed⟩ := enters
  have held : Held (block :: state.blocks) state.layout.height (fun _ => False) subject opened :=
    ⟨layout ▸ books.sound, by rw [layout], blocks, (by simp)⟩
  refine (stays_spillLocals _ _ _ subject opened held).andThen ?_
  rintro _ spilled ⟨held, _⟩
  rw [ensures_bind]
  refine (Idle.record _).ensures ?_
  intro _ started startedLayout startedBlocks
  refine (innermost_finds (startedBlocks.trans held.blocks)).andThen ?_
  rintro found _ ⟨rfl, rfl⟩
  rw [ensures_bind]
  refine (Idle.bind _ _).ensures ?_
  intro _ bound boundLayout boundBlocks
  have same : bound.layout = spilled.layout := boundLayout.trans startedLayout
  have sound : bound.layout.Sound := same ▸ held.sound
  have tall := books.tall
  rw [ensures_bind, ensures_get]
  refine ensures_modifyBlock.mpr ⟨?_, trivial⟩
  apply Books.open books
  · exact sound
  · dsimp only
    rw [same]
    exact held.height
  · dsimp only
    rw [boundBlocks, startedBlocks, held.blocks, List.modify_zero_cons]
  constructor
  · rw [entered.base]
    omega
  · rfl
  · exact sound.congr rfl rfl rfl
  · simp [entered.endReached]
  · simp [entered.kind]
  · exact fun _ => rfl
  · simp [unarmed]
  · simp [entered.kind]

theorem keeps_lowerIf (instr : Instr) : Keeps Books (lowerIf instr) anything := by
  refine (Books.idle (.expect 0 .i32)).andThen fun _ => ?_
  refine (keeps_popRegister _).andThen fun condition => ?_
  intro subject state books
  refine (enter_entered .ifThen instr).andThen ?_
  intro _ opened enters
  obtain ⟨layout, block, blocks, entered, _⟩ := enters
  rw [ensures_bind]
  refine (Idle.record _).ensures ?_
  intro _ started startedLayout startedBlocks
  refine (innermost_finds (startedBlocks.trans blocks)).andThen ?_
  rintro found _ ⟨rfl, rfl⟩
  rw [ensures_bind]
  refine (Idle.branchIfZero _ _ _).ensures ?_
  intro _ jumped jumpedLayout jumpedBlocks
  have same : jumped.layout = state.layout :=
    jumpedLayout.trans (startedLayout.trans layout)
  rw [ensures_bind, ensures_get]
  refine ensures_modifyBlock.mpr ⟨?_, trivial⟩
  apply Books.open books
  · dsimp only
    rw [same]
    exact books.sound
  · dsimp only
    rw [same]
  · dsimp only
    rw [jumpedBlocks, startedBlocks, blocks, List.modify_zero_cons]
  have armed : Entered state.layout.height .ifThen
      { found with elseLayout := some jumped.layout } :=
    ⟨entered.kind, entered.base, entered.join, entered.endReached⟩
  apply armed.kept books.tall
  · simp
  · intro saved equal
    cases equal
    rw [same]
    exact ⟨books.sound, books.tall⟩
  · simp

theorem startArm_books (inner : Block) (outer : List Block) {label : Label} {layout : Layout}
    (books : Books subject state) (opened : state.blocks = inner :: outer)
    (branches : inner.kind = .ifThen) (sound : layout.Sound)
    (tall : subject.locals ≤ layout.height) :
    Ensures (startArm label layout) subject state
      fun value after => Books subject after ∧ anything value := by
  have kept := books.blocks inner (opened ▸ List.mem_cons_self)
  unfold startArm
  rw [ensures_bind, ensures_modifyBlock, ensures_bind]
  refine (Idle.bind label 0).ensures ?_
  intro _ bound _ blocks
  refine (blockAt_same 1).andThen ?_
  rintro parent _ rfl
  rw [ensures_bind, ensures_modifyLayout]
  refine ensures_modifyBlock.mpr ⟨⟨sound, tall, ?_⟩, trivial⟩
  dsimp only
  rw [blocks, List.modify_modify_eq, opened, List.modify_zero_cons]
  intro other member
  cases member with
  | head =>
    have different : inner.kind ≠ .loop := by simp [branches]
    exact ⟨kept.floor, kept.startsAt, kept.sound, kept.tall, fun _ => kept.fresh different,
      (by simp), (by simp), (by simp)⟩
  | tail _ before => exact books.blocks other (opened ▸ List.mem_cons_of_mem _ before)

theorem keeps_lowerElse : Keeps Books lowerElse anything := by
  intro subject state books
  rw [lowerElse_eq]
  unfold innermost
  rw [ensures_bind, ensures_bind, ensures_get]
  split
  · rename_i block outer opened
    rw [ensures_pure]
    refine ensures_ite.mpr ⟨fun _ => ensures_bind.mpr ensures_throw, fun kind => ?_⟩
    have branches : block.kind = .ifThen := by simpa using kind
    have different : block.kind ≠ .loop := by simp [branches]
    have found : state.blocks[0]? = some block := by simp [opened]
    have kept := books.blocks block (opened ▸ List.mem_cons_self)
    obtain ⟨arm, armed⟩ := Option.ne_none_iff_exists'.mp (kept.armed branches)
    obtain ⟨armSound, armTall⟩ := kept.saved arm armed
    rw [armed, Option.getD_some]
    refine ensures_ite.mpr ⟨fun _ => ?_,
      fun _ => startArm_books block outer books opened branches armSound armTall⟩
    rw [ensures_bind, ensures_get]
    -- The then arm reaches the end of the block with a layout.
    have finish : ∀ join : Layout, join.Sound → join.base = block.base →
        subject.locals ≤ join.height →
        Ensures (joinArms block state.layout join) subject state
          fun value after => Books subject after ∧ anything value := by
      intro join sound startsAt tall
      unfold joinArms
      rw [armed, Option.getD_some, ensures_bind, ensures_modifyBlock, ensures_bind]
      refine (Idle.mergeAll join state.layout).ensures ?_
      intro _ merged layout blocks
      rw [ensures_bind]
      refine (Idle.branch block.label 0).ensures ?_
      intro _ jumped sameLayout sameBlocks
      rw [ensures_bind, ensures_modifyBlock]
      apply startArm_books { block with join, endReached := true } outer
      · apply Books.modify books
        · exact sameLayout.trans layout
        · dsimp only
          rw [sameBlocks, blocks, List.modify_modify_eq]
        · intro other here
          rw [found] at here
          cases here
          exact kept.reach_end sound startsAt tall
      · dsimp only
        rw [sameBlocks, blocks, List.modify_modify_eq, opened, List.modify_zero_cons]
        rfl
      · exact branches
      · exact armSound
      · exact armTall
    refine ensures_ite.mpr ⟨?_, ?_⟩
    · intro reached
      refine ensures_bind.mpr (ensures_pure.mpr ?_)
      exact finish block.join kept.sound kept.startsAt (kept.tall reached)
    · intro fresh
      rw [ensures_bind]
      have blank := kept.fresh different (by simpa using fresh)
      refine (initJoin_lays _ kept.floor blank books.sound).mono ?_
      rintro join _ ⟨rfl, sound, startsAt, tall⟩
      exact finish join sound startsAt tall
  · exact ensures_throw

theorem keeps_closeBlock : Keeps Books closeBlock anything := by
  apply Keeps.modify
  intro subject state books
  constructor
  · exact books.sound
  · exact books.tall
  · intro block member
    exact books.blocks block (List.mem_of_mem_tail member)

theorem keeps_demandEndHeight (block : Block) : Keeps Books (demandEndHeight block) anything :=
  Keeps.get.andThen fun _ => .ite .throw .done

theorem resetToResults_books (books : Books subject state) {block : Block}
    (kept : block.Kept subject.locals) :
    Ensures (resetToResults block) subject state fun value after =>
      Books subject after ∧ anything value := by
  unfold resetToResults
  rw [ensures_bind, ensures_modifyLayout]
  have floor := kept.floor
  have truncated : Books subject
      { state with layout := state.layout.truncate block.base.toNat } := by
    apply books.relayout
    · exact books.sound.dropTo _ _
    · rw [Layout.height_truncate]
      have tall := books.tall
      omega
  refine (?_ : Keeps Books _ anything) subject _ truncated
  refine Keeps.andThen ?_ fun _ => .done
  apply Keeps.forIn
  intro type _
  refine Keeps.get.andThen fun state => (Books.idle (.needSlot _)).andThen fun _ => ?_
  refine Keeps.andThen ?_ fun _ => .pure rfl
  intro subject state books
  exact ensures_modifyLayout.mpr ⟨books.push (Layout.fits_inFrame _), trivial⟩

theorem finishOneArmed_books (books : Books subject state) {block : Block}
    (kept : block.Kept subject.locals) (branches : block.kind = .ifThen) :
    Ensures (finishOneArmed block) subject state fun value after =>
      Books subject after ∧ anything value := by
  obtain ⟨arm, armed⟩ := Option.ne_none_iff_exists'.mp (kept.armed branches)
  obtain ⟨armSound, armTall⟩ := kept.saved arm armed
  rw [finishOneArmed_eq]
  refine ensures_ite.mpr ⟨fun _ => ensures_bind.mpr ensures_throw, fun _ => ?_⟩
  rw [armed, Option.getD_some]
  -- The missing arm goes to the end of the block, if anything else does.
  have skip : ∀ join : Layout, ((block.endReached || block.isReached) = true →
        join.Sound ∧ subject.locals ≤ join.height) → ∀ middle, Books subject middle →
      Ensures (finishArm block arm join) subject middle
        fun value after => Books subject after ∧ anything value := by
    intro join sound middle books
    refine (Books.idle (.bind _ _) subject middle books).andThen ?_
    rintro _ bound ⟨books, _⟩
    refine ensures_ite.mpr ⟨?_, ?_⟩
    · intro reached
      obtain ⟨sound, tall⟩ := sound reached
      refine (Books.idle (.mergeAll _ _) subject bound books).andThen ?_
      rintro _ merged ⟨books, _⟩
      exact ensures_modifyLayout.mpr ⟨books.relayout sound tall, trivial⟩
    · intro _
      exact ensures_modifyLayout.mpr ⟨books.relayout armSound armTall, trivial⟩
  have finish : ∀ join : Layout, ((block.endReached || block.isReached) = true →
        join.Sound ∧ subject.locals ≤ join.height) →
      Ensures (joinMissing block arm join) subject state
        fun value after => Books subject after ∧ anything value := by
    intro join sound
    refine ensures_ite.mpr ⟨fun _ => ?_, fun _ => skip join sound state books⟩
    rw [ensures_bind, ensures_get, ensures_bind]
    refine (Books.idle (.mergeAll _ _) subject state books).mono ?_
    rintro _ merged ⟨books, _⟩
    refine (Books.idle (.branch _ _) subject merged books).andThen ?_
    rintro _ jumped ⟨books, _⟩
    exact skip join sound jumped books
  refine ensures_ite.mpr ⟨?_, ?_⟩
  · intro fresh
    simp only [Bool.and_eq_true, Bool.not_eq_true'] at fresh
    rw [ensures_bind]
    have blank := kept.fresh (by simp [branches]) fresh.1
    refine (initJoin_lays 0 kept.floor blank armSound).mono ?_
    rintro join _ ⟨rfl, sound, _, tall⟩
    exact finish join fun _ => ⟨sound, tall⟩
  · intro unfresh
    refine ensures_bind.mpr (ensures_pure.mpr (finish block.join ?_))
    intro reached
    refine ⟨kept.sound, kept.tall ?_⟩
    cases ended : block.endReached with
    | true => rfl
    | false =>
      rw [ended, Bool.false_or] at reached
      exact absurd (by simp [ended, reached]) unfresh

theorem settleEnd_books (books : Books subject state) {block : Block}
    (kept : block.Kept subject.locals) :
    Ensures (settleEnd block) subject state fun value after =>
      Books subject after ∧ anything value := by
  unfold settleEnd
  refine ensures_ite.mpr ⟨?_, fun _ => ensures_ite.mpr ⟨?_, fun _ => ensures_ite.mpr ⟨?_, ?_⟩⟩⟩
  · intro oneArmed
    exact finishOneArmed_books books kept (by simpa [Block.isOneArmed] using oneArmed)
  · intro _
    exact resetToResults_books books kept
  · intro reached
    have replaced : ∀ middle, Books subject middle →
        Ensures (modifyLayout fun _ => block.join) subject middle fun value after =>
          Books subject after ∧ anything value := by
      intro middle books
      exact ensures_modifyLayout.mpr
        ⟨books.relayout kept.sound (kept.tall reached), trivial⟩
    refine ensures_ite.mpr ⟨fun _ => ?_, fun _ => replaced state books⟩
    rw [ensures_bind, ensures_get, ensures_bind]
    refine (Books.idle (.mergeAll _ _) subject state books).mono ?_
    rintro _ merged ⟨books, _⟩
    exact replaced merged books
  · intro _
    exact keeps_demandEndHeight block subject state books

theorem endBlock_books (books : Books subject state) {block : Block}
    (kept : block.Kept subject.locals) :
    Ensures (endBlock block) subject state fun value after =>
      Books subject after ∧ anything value := by
  rw [endBlock_eq]
  refine (settleEnd_books books kept).andThen ?_
  rintro _ settled ⟨books, _⟩
  refine (?_ : Keeps Books _ anything) subject settled books
  have close : Keeps Books (leaveBlock block) anything := by
    refine keeps_closeBlock.andThen fun _ => keeps_modifyBlock ?_
    intro locals parent kept
    split
    · exact kept_reach kept _
    · exact kept
  refine (Books.idle (.record _)).andThen fun _ => .ite ?_ close
  exact (Books.idle (.bind _ _)).andThen fun _ => close

theorem keeps_endFunction (block : Block) : Keeps Books (endFunction block) anything := by
  have close : Keeps Books (do
      record (.controlEnd block.kind)
      closeBlock) anything :=
    (Books.idle (.record _)).andThen fun _ => keeps_closeBlock
  refine .ite ?_ close
  refine (keeps_demandEndHeight block).andThen fun _ => ?_
  exact (Books.idle .returnFromFunction).andThen fun _ => close

theorem keeps_lowerEnd : Keeps Books lowerEnd anything := by
  intro subject state books
  unfold lowerEnd innermost
  rw [ensures_bind, ensures_bind, ensures_get]
  split
  · rename_i block outer opened
    rw [ensures_pure, ensures_bind, ensures_get]
    refine ensures_ite.mpr ⟨fun _ => keeps_endFunction block subject state books, fun _ => ?_⟩
    exact endBlock_books books (books.blocks block (opened ▸ List.mem_cons_self))
  · exact ensures_throw

end Compile

end WasmX64
