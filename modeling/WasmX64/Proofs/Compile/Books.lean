import WasmX64.Proofs.Compile.Spill
import WasmX64.Proofs.Typing.Plain

/-!
# The books of a compilation

The layout of a compilation is sound, and so are the layouts that its open blocks have
saved.  Everything that plain instructions are lowered with keeps the books.
-/

namespace WasmX64

/-- The layouts saved in a block are sound and reach above the locals. -/
structure Block.Kept (locals : Nat) (block : Block) : Prop where
  floor : (locals : Int) ≤ block.base
  startsAt : block.join.base = block.base
  sound : block.join.Sound
  tall : block.endReached = true → locals ≤ block.join.height
  fresh : block.kind ≠ .loop → block.endReached = false → block.join = { base := block.base }
  loops : block.kind = .loop → block.startReached = true
  saved : ∀ layout, block.elseLayout = some layout →
    layout.Sound ∧ locals ≤ layout.height
  armed : block.kind = .ifThen → block.elseLayout ≠ none

namespace Compile

variable {α : Type}

/-- The layout of a compilation and those saved in its open blocks are sound. -/
structure Books (subject : Subject) (state : Compilation) : Prop where
  sound : state.layout.Sound
  tall : subject.locals ≤ state.layout.height
  blocks : ∀ block ∈ state.blocks, block.Kept subject.locals

variable {subject : Subject} {state after : Compilation}

namespace Books

theorem held (books : Books subject state) :
    Held state.blocks state.layout.height (fun _ => False) subject state :=
  ⟨books.sound, rfl, rfl, (by simp)⟩

theorem of_held {plain : Nat → Prop} (books : Books subject state)
    (held : Held state.blocks state.layout.height plain subject after) : Books subject after := by
  constructor
  · exact held.sound
  · rw [held.height]
    exact books.tall
  · rw [held.blocks]
    exact books.blocks

theorem keeps {action : Compile α} {post : α → Prop} (stays : Stays action post) :
    Keeps Books action post := by
  intro subject state books
  refine (stays _ _ _ subject state books.held).mono ?_
  intro value after kept
  exact ⟨books.of_held kept.1, kept.2⟩

theorem idle {action : Compile α} (idle : Idle action) : Keeps Books action anything :=
  keeps idle.stays

theorem replace (books : Books subject state) (blocks : after.blocks = state.blocks)
    (sound : after.layout.Sound) (tall : subject.locals ≤ after.layout.height) :
    Books subject after :=
  ⟨sound, tall, blocks ▸ books.blocks⟩

theorem relayout (books : Books subject state) {layout : Layout} (sound : layout.Sound)
    (tall : subject.locals ≤ layout.height) : Books subject { state with layout } :=
  ⟨sound, tall, books.blocks⟩

theorem push (books : Books subject state) {slot : Slot} (fits : slot.Fits) :
    Books subject { state with layout := state.layout.push slot } := by
  apply books.relayout
  · exact books.sound.push fits
  · rw [Layout.height, Layout.slots_push, Array.size_push]
    exact Nat.le_succ_of_le books.tall

end Books

theorem fits_inReg {type : ValueType} {reg : Register} (suits : Suits type.regClass reg) :
    (Slot.inReg type reg).Fits := by
  intro other place
  cases place
  exact suits

theorem keeps_pushRegister {type : ValueType} {reg : Register}
    (suits : Suits type.regClass reg) : Keeps Books (pushRegister type reg) anything := by
  intro subject state books
  exact ensures_modifyLayout.mpr ⟨books.push (fits_inReg suits), trivial⟩

theorem keeps_pushConst (type : ValueType) (value : Int32) :
    Keeps Books (pushConst type value) anything := by
  intro subject state books
  exact ensures_modifyLayout.mpr ⟨books.push (Layout.fits_ofConst type value), trivial⟩

theorem popSlot_before (books : Books subject state) :
    Ensures popSlot subject state fun slot after =>
      state.layout.top? = some slot ∧ after = { state with layout := state.layout.pop } ∧
        subject.locals ≤ state.layout.pop.height := by
  unfold popSlot innermost
  simp only [ensures_bind, ensures_get]
  split
  · rename_i block outer opened
    simp only [ensures_pure, ensures_ite, ensures_bind]
    refine ⟨fun _ => ensures_throw, fun above => ?_⟩
    split
    · rename_i slot top
      simp only [ensures_bind, ensures_modifyLayout, ensures_pure]
      refine ⟨top, trivial, ?_⟩
      have floor := (books.blocks block (opened ▸ List.mem_cons_self)).floor
      simp only [Layout.height, Layout.pop, Array.size_pop] at above ⊢
      omega
    · exact ensures_throw
  · exact ensures_throw

theorem expect_above (books : Books subject state) (depth : Nat) (type : ValueType) :
    Ensures (expect depth type) subject state fun _ after =>
      after = state ∧ subject.locals + depth < state.layout.height := by
  unfold expect operandType innermost
  simp only [ensures_bind, ensures_get]
  split
  · rename_i block outer opened
    simp only [ensures_pure, ensures_ite, ensures_bind]
    refine ⟨fun _ => ensures_throw, fun above => ?_⟩
    have floor := (books.blocks block (opened ▸ List.mem_cons_self)).floor
    split
    · rw [ensures_pure]
      exact ⟨fun _ => ensures_throw, fun _ => ⟨rfl, by omega⟩⟩
    · exact ensures_throw
  · exact ensures_throw

theorem keeps_popRegister (pinned : RegSet) : Keeps Books (popRegister pinned) anything := by
  intro subject state books
  unfold popRegister
  refine (popSlot_before books).andThen ?_
  intro slot middle popped
  obtain ⟨top, rfl, tall⟩ := popped
  split
  · rename_i reg place
    simp only [ensures_bind, ensures_modifyLayout, ensures_pure]
    refine ⟨books.relayout (books.sound.pop_release top place) ?_, trivial⟩
    rw [Layout.height, Layout.slots_release]
    exact tall
  · rename_i place
    have below := books.relayout (books.sound.pop_plain top place) tall
    have rest : Keeps Books (do
        let reg ← takeRegister slot.type.regClass [] pinned
        materialize reg slot (← MonadState.get).layout.height
        return reg) anything :=
      (Books.keeps (stays_takeRegister _ _ _)).bind fun reg _ => Keeps.get.andThen fun _ =>
        (Books.idle (.materialize _ _ _)).andThen fun _ => .pure trivial
    exact rest subject _ below

theorem keeps_dropOperand : Keeps Books dropOperand anything := by
  intro subject state books
  unfold dropOperand
  refine (popSlot_before books).andThen ?_
  intro slot middle popped
  obtain ⟨top, rfl, tall⟩ := popped
  split
  · rename_i reg place
    refine ensures_modifyLayout.mpr
      ⟨books.relayout (books.sound.pop_release top place) ?_, trivial⟩
    rw [Layout.height, Layout.slots_release]
    exact tall
  · rename_i place
    exact ensures_pure.mpr ⟨books.relayout (books.sound.pop_plain top place) tall, trivial⟩

theorem Books.modify (books : Books subject state) {depth : Nat} {change : Block → Block}
    (layout : after.layout = state.layout) (blocks : after.blocks = state.blocks.modify depth change)
    (kept : ∀ block, state.blocks[depth]? = some block → (change block).Kept subject.locals) :
    Books subject after := by
  constructor
  · rw [layout]
    exact books.sound
  · rw [layout]
    exact books.tall
  · intro block member
    obtain ⟨index, found⟩ := List.mem_iff_getElem?.mp member
    rw [blocks, List.getElem?_modify] at found
    cases before : state.blocks[index]? with
    | none => simp [before] at found
    | some old =>
      rw [before] at found
      split at found
      · rename_i same
        cases found
        exact kept old (same ▸ before)
      · cases found
        exact books.blocks _ (List.mem_of_getElem? before)

/-- Changes of a block that leave its saved layouts alone. -/
theorem keeps_modifyBlock {depth : Nat} {change : Block → Block}
    (keeps : ∀ locals block, block.Kept locals → (change block).Kept locals) :
    Keeps Books (modifyBlock depth change) anything := by
  intro subject state books
  refine ensures_modifyBlock.mpr ⟨books.modify rfl rfl ?_, trivial⟩
  intro block found
  exact keeps _ _ (books.blocks block (List.mem_of_getElem? found))

theorem kept_reach {locals : Nat} {block : Block} (kept : block.Kept locals)
    (reach : Reachability) : ({ block with reach } : Block).Kept locals :=
  ⟨kept.floor, kept.startsAt, kept.sound, kept.tall, kept.fresh, kept.loops, kept.saved,
    kept.armed⟩

theorem keeps_demoteBlock : Keeps Books demoteBlock anything := by
  apply keeps_modifyBlock
  intro locals block kept
  split
  · exact kept_reach kept _
  · exact kept

theorem keeps_localGet (index : UInt32) : Keeps Books (lowerLocalGet index) anything := by
  intro subject state books
  unfold lowerLocalGet
  refine (localSlot_finds index).andThen ?_
  intro slot after finds
  obtain ⟨rfl, inside, found⟩ := finds
  split
  · rename_i reg place
    have suits := books.sound.fits slot (Array.mem_of_getElem? found) reg place
    exact keeps_pushRegister suits subject _ books
  · exact keeps_pushConst _ _ subject _ books
  · have fills : Keeps Books (do
        let reg ← takeRegister slot.type.regClass [] RegSet.empty
        emit (Sequence.fill slot.type reg index.toNat)
        pushRegister slot.type reg) anything :=
      (Books.keeps (stays_takeRegister _ _ _)).bind fun reg suits =>
        (Books.idle (.emit _)).andThen fun _ => keeps_pushRegister suits
    exact fills subject _ books
  · exact ensures_pure.mpr ⟨books, trivial⟩

theorem releaseLocal_balanced {index : Nat} {slot : Slot} (sound : state.layout.Sound)
    (found : state.layout.slots[index]? = some slot) :
    Ensures (releaseLocal index) subject state fun _ after =>
      after.blocks = state.blocks ∧ after.layout.slots = state.layout.slots ∧
        after.layout.Balanced (state.layout.setSlot index (.inFrame slot.type)).registers := by
  have exchanged := Layout.registers_setSlot (.inFrame slot.type) found
  have plain : (Slot.inFrame slot.type).reg? = none := rfl
  rw [plain, Option.toList_none, List.append_nil] at exchanged
  refine ensures_modifyLayout.mpr ⟨rfl, ?_⟩
  dsimp only
  rw [Layout.slot?_natCast, found]
  split
  · rename_i type reg same
    cases same
    have allocable := (sound.fits _ (Array.mem_of_getElem? found) reg rfl).1
    refine ⟨Layout.slots_release, ?_⟩
    apply Layout.Balanced.release _ allocable
    exact sound.balanced.perm (exchanged.symm.trans (List.perm_append_singleton _ _))
  · rename_i other
    have held : slot.reg? = none := by
      apply Layout.reg?_plain
      intro reg place
      exact other slot.type reg (by rw [← place])
    rw [held, Option.toList_none, List.append_nil] at exchanged
    exact ⟨rfl, sound.balanced.perm exchanged.symm⟩

theorem Books.freed {index top : Nat} {slot : Slot} (books : Books subject state)
    (found : state.layout.slots[index]? = some slot) (plain : state.layout.PlainAt top)
    (blocks : after.blocks = state.blocks) (slots : after.layout.slots = state.layout.slots)
    (balanced : after.layout.Balanced
      (state.layout.setSlot index (.inFrame slot.type)).registers) :
    Held state.blocks state.layout.height (fun place => place = index ∨ place = top) subject
      { after with layout := after.layout.setSlot index (.inFrame slot.type) } := by
  constructor
  · exact books.sound.replace_plain found slots balanced (Layout.plain_inFrame _)
  · rw [Layout.height_setSlot, Layout.height, slots]
    rfl
  · exact blocks
  · intro place wanted
    cases wanted with
    | inl here =>
      intro other set
      rw [here, Layout.getElem?_setSlot, slots] at set
      split at set
      · cases set
        rfl
      · rename_i outside
        refine absurd ⟨rfl, ?_⟩ outside
        rw [Layout.height, slots]
        exact (Array.getElem?_eq_some_iff.mp found).1
    | inr there =>
      apply Layout.PlainAt.setSlot
      intro other listed
      exact (there ▸ plain) other (slots ▸ listed)

theorem setLocalFromFrame_held {index : Nat} {slot : Slot} (books : Books subject state)
    (found : state.layout.slots[index]? = some slot) {top : Nat} (different : index ≠ top)
    (plain : state.layout.PlainAt top) :
    Ensures (setLocalFromFrame index slot) subject state fun _ after =>
      Held state.blocks state.layout.height (· = top) subject after := by
  unfold setLocalFromFrame
  rw [ensures_bind, ensures_get]
  dsimp only
  split
  · refine (Idle.emit _ state.layout state.blocks subject state ⟨rfl, rfl⟩).mono ?_
    intro _ after kept
    obtain ⟨⟨layout, blocks⟩, _⟩ := kept
    refine ⟨layout ▸ books.sound, by rw [layout], blocks, ?_⟩
    rintro place rfl
    exact layout ▸ plain
  · refine (releaseLocal_balanced books.sound found).andThen ?_
    intro _ released given
    obtain ⟨blocks, slots, balanced⟩ := given
    have freed := books.freed found plain blocks slots balanced
    rw [ensures_bind, ensures_modifyLayout, ensures_bind]
    refine (stays_takeRegister slot.type.regClass [] RegSet.empty _ _ _ subject _ freed).mono ?_
    intro reg taken kept
    obtain ⟨held, suits⟩ := kept
    have inside : index < taken.layout.slots.size := by
      have height := held.height
      have below := (Array.getElem?_eq_some_iff.mp found).1
      simp only [Layout.height] at height
      omega
    have here := Array.getElem?_eq_getElem inside
    rw [ensures_bind, ensures_emit, ensures_modifyLayout]
    constructor
    · apply held.sound.setSlot_retain here
      · exact held.plain index (.inl rfl) _ here
      · exact fits_inReg suits
      · rfl
    · rw [Layout.height, Layout.slots_retain]
      exact (Layout.height_setSlot index _).trans held.height
    · exact held.blocks
    · intro place wanted other set
      rw [wanted, Layout.slots_retain, Layout.getElem?_setSlot,
        if_neg fun same => different same.1] at set
      exact held.plain top (.inr rfl) other set

/-- A value without a register may be left on top or be taken off. -/
theorem takePlain {top : Nat} (keep : Bool) (books : Books subject state)
    (room : subject.locals < state.layout.height) (last : top + 1 = state.layout.height)
    (held : Held state.blocks state.layout.height (· = top) subject after) :
    Ensures (if !keep then modifyLayout Layout.pop else pure ()) subject after
      fun _ final => Books subject final ∧ anything () := by
  cases keep with
  | true => exact ensures_pure.mpr ⟨books.of_held held, trivial⟩
  | false =>
    refine ensures_modifyLayout.mpr ⟨(books.of_held held).relayout ?_ ?_, trivial⟩
    · have size : after.layout.slots.size = top + 1 := held.height.trans last.symm
      have found := Array.getElem?_eq_getElem (show top < after.layout.slots.size by omega)
      apply held.sound.pop_plain
      · rw [Layout.top?, Array.back?_eq_getElem?, size]
        exact found
      · intro reg place
        have none := held.plain top rfl _ found
        rw [Slot.reg?_eq_some_iff.mpr place] at none
        cases none
    · have height := held.height
      simp only [Layout.height, Layout.pop, Array.size_pop] at height room ⊢
      omega

theorem keeps_localSet (index : UInt32) (keep : Bool) :
    Keeps Books (lowerLocalSet index keep) anything := by
  intro subject state books
  unfold lowerLocalSet
  refine (localSlot_finds index).andThen ?_
  intro slot after finds
  obtain ⟨rfl, inside, found⟩ := finds
  refine (expect_above books 0 slot.type).andThen ?_
  intro _ after expects
  obtain ⟨rfl, above⟩ := expects
  rw [ensures_bind, ensures_get]
  split
  · exact ensures_throw
  rename_i top isTop
  have size : after.layout.height - 1 + 1 = after.layout.height := by omega
  have last : after.layout.slots[after.layout.height - 1]? = some top := by
    rw [← isTop, Layout.top?, Array.back?_eq_getElem?]
    rfl
  have plain : (∀ reg, top.place ≠ .reg reg) →
      after.layout.PlainAt (after.layout.height - 1) := by
    intro free slot here
    rw [last] at here
    cases here
    exact Layout.reg?_plain free
  -- The value on top moves into the local together with its claim on a register.
  have moves : ∀ released : Compilation, released.blocks = after.blocks →
      released.layout.slots = after.layout.slots →
      released.layout.Balanced
        (after.layout.setSlot index.toNat (.inFrame slot.type)).registers →
      Books subject
        { released with layout := (released.layout.setSlot index.toNat top).pop } := by
    intro released blocks slots balanced
    apply Books.replace books
    · exact blocks
    · exact books.sound.moveTop found slots balanced isTop (by omega)
    · have height : released.layout.slots.size = after.layout.height := by
        rw [slots, Layout.height]
      simp only [Layout.height, Layout.pop, Layout.setSlot, Array.size_pop,
        Array.size_setIfInBounds, height]
      simp only [Layout.height] at above
      omega
  cases place : top.place with
  | reg reg =>
    dsimp only
    refine (releaseLocal_balanced books.sound found).andThen ?_
    intro _ released given
    obtain ⟨blocks, slots, balanced⟩ := given
    rw [ensures_bind, ensures_modifyLayout]
    cases keep with
    | true =>
      refine ensures_bind.mpr (ensures_modifyLayout.mpr (ensures_pure.mpr ⟨?_, trivial⟩))
      apply Books.replace books
      · exact blocks
      · exact books.sound.shareTop found slots balanced (Array.mem_of_back? isTop) place
      · rw [Layout.height, Layout.slots_retain, ← Layout.height, Layout.height_setSlot,
          Layout.height, slots]
        exact books.tall
    | false => exact ensures_modifyLayout.mpr ⟨moves released blocks slots balanced, trivial⟩
  | const value =>
    dsimp only
    refine (releaseLocal_balanced books.sound found).andThen ?_
    intro _ released given
    obtain ⟨blocks, slots, balanced⟩ := given
    rw [ensures_bind, ensures_modifyLayout]
    cases keep with
    | true =>
      refine ensures_pure.mpr ⟨?_, trivial⟩
      apply Books.replace books
      · exact blocks
      · apply books.sound.replace_plain found slots balanced
        intro reg held
        rw [place] at held
        cases held
      · rw [Layout.height_setSlot, Layout.height, slots]
        exact books.tall
    | false => exact ensures_modifyLayout.mpr ⟨moves released blocks slots balanced, trivial⟩
  | frame =>
    dsimp only
    refine (setLocalFromFrame_held books found (by omega) (plain ?_)).andThen ?_
    · intro reg held
      rw [place] at held
      cases held
    · intro _ middle held
      exact takePlain keep books (by omega) size held
  | unknown code =>
    refine takePlain keep books (by omega) size ⟨books.sound, rfl, rfl, ?_⟩
    intro index here
    rw [here]
    apply plain
    intro reg held
    rw [place] at held
    cases held

/-- What each round of a loop establishes for its own value holds of all of them at the end,
if every round keeps it. -/
theorem ensures_forIn_each {list : List α} {body : α → PUnit → Compile (ForInStep PUnit)}
    (invariant : Compilation → Prop) (settled : α → Compilation → Prop)
    (starts : invariant state)
    (round : ∀ value ∈ list, ∀ state, invariant state →
      Ensures (body value PUnit.unit) subject state fun step after =>
        step = .yield PUnit.unit ∧ invariant after ∧ settled value after ∧
          ∀ other, settled other state → settled other after) :
    Ensures (forIn list PUnit.unit body) subject state fun _ after =>
      invariant after ∧ (∀ value ∈ list, settled value after) ∧
        ∀ other, settled other state → settled other after := by
  induction list generalizing state with
  | nil => exact ensures_pure.mpr ⟨starts, (by simp), fun _ => id⟩
  | cons value rest ih =>
    rw [List.forIn_cons, ensures_bind]
    refine (round value List.mem_cons_self state starts).mono ?_
    rintro step middle ⟨rfl, kept, here, before⟩
    refine (ih kept fun other member =>
      round other (List.mem_cons_of_mem value member)).mono ?_
    intro _ after ends
    obtain ⟨holds, each, later⟩ := ends
    refine ⟨holds, ?_, fun other already => later other (before other already)⟩
    intro other member
    cases member with
    | head => exact later value here
    | tail _ among => exact each other among

/-- After the first slots are stored, none of them holds a register. -/
theorem storeBelow_plain (count : Nat) :
    Ensures (storeBelow count) subject state fun _ after =>
      after.blocks = state.blocks ∧ after.layout.height = state.layout.height ∧
        ∀ index < count, after.layout.PlainAt index := by
  unfold storeBelow
  refine (ensures_forIn_each
    (fun after => after.blocks = state.blocks ∧ after.layout.height = state.layout.height)
    (fun index after => after.layout.PlainAt index) ⟨rfl, rfl⟩ ?_).andThen ?_
  · intro index _ middle same
    simp only [ensures_bind, ensures_get]
    split
    · rename_i type reg found
      simp only [ensures_bind, ensures_emit, ensures_needSlot, ensures_modifyLayout,
        ensures_pure, Layout.height_setSlot]
      refine ⟨trivial, same, ?_, fun other plain => plain.setSlot index type⟩
      intro slot set
      rw [Layout.getElem?_setSlot] at set
      split at set
      · cases set
        rfl
      · rename_i outside
        rw [Layout.slot?_natCast] at found
        exact absurd ⟨rfl, (Array.getElem?_eq_some_iff.mp found).1⟩ outside
    · rename_i other
      refine ensures_pure.mpr ⟨rfl, same, ?_, fun _ => id⟩
      intro slot found
      apply Layout.reg?_plain
      intro reg place
      apply other slot.type reg
      rw [Layout.slot?_natCast, found, ← place]
  · intro _ after stored
    obtain ⟨⟨blocks, height⟩, plain, _⟩ := stored
    exact ensures_pure.mpr
      ⟨blocks, height, fun index below => plain index (List.mem_range.mpr below)⟩

theorem sound_extract {layout : Layout} {count : Nat}
    (plain : ∀ index < count, layout.PlainAt index) :
    Layout.Sound { layout.forgetAll with slots := layout.slots.extract 0 count } := by
  apply Layout.sound_forgetAll
  intro slot member reg place
  obtain ⟨index, inside, found⟩ := Array.mem_iff_getElem.mp member
  rw [Array.getElem_extract] at found
  rw [Array.size_extract] at inside
  have listed : layout.slots[index]? = some slot :=
    Array.getElem?_eq_some_iff.mpr ⟨by omega, by simpa using found⟩
  have none := plain index (by omega) slot listed
  rw [Slot.reg?_eq_some_iff.mpr place] at none
  cases none

theorem keeps_prepareCall (type : FuncType) (signature : Signature) (target : Register) :
    Keeps Books (prepareCall type signature target) anything := by
  intro subject state books
  unfold prepareCall innermost
  rw [ensures_bind, ensures_bind, ensures_get]
  split
  · rename_i block outer opened
    have floor := (books.blocks block (opened ▸ List.mem_cons_self)).floor
    rw [ensures_pure, ensures_bind, ensures_get]
    refine ensures_ite.mpr ⟨fun _ => ensures_bind.mpr ensures_throw, fun above => ?_⟩
    refine (demandArguments_finds type.params).andThen ?_
    intro _ after demanded
    obtain ⟨rfl, _⟩ := demanded
    refine (storeBelow_plain _).andThen ?_
    intro _ stored plain
    obtain ⟨blocks, height, plain⟩ := plain
    have tail : ∀ middle : Compilation, middle.layout = stored.layout →
        middle.blocks = stored.blocks → ∀ (action : TransferM Unit) (held : Register),
        Ensures (do
          transfer middle.layout action
          modifyLayout fun layout =>
            { layout.forgetAll with
              slots := layout.slots.extract 0 (after.layout.height - type.params.length) }
          return held) subject middle
          fun value final => Books subject final ∧ anything value := by
      intro middle sameLayout sameBlocks action held
      refine (Idle.transfer _ action _ _ subject middle ⟨rfl, rfl⟩).andThen ?_
      intro _ moved kept
      obtain ⟨⟨layout, movedBlocks⟩, _⟩ := kept
      rw [layout.trans sameLayout |>.symm] at plain height
      simp only [ensures_bind, ensures_modifyLayout, ensures_pure]
      refine ⟨⟨sound_extract plain, ?_, ?_⟩, trivial⟩
      · simp only [Layout.height, Array.size_extract] at height above ⊢
        omega
      · dsimp only
        rw [movedBlocks, sameBlocks, blocks]
        exact books.blocks
    refine ensures_ite.mpr ⟨?_, ?_⟩
    · intro _
      rw [ensures_bind, ensures_emit, ensures_bind, ensures_get]
      apply tail
      · rfl
      · rfl
    · intro _
      rw [ensures_bind, ensures_get]
      apply tail
      · rfl
      · rfl
  · exact ensures_throw

theorem routine (faults : List TrapKind) : Routine False faults fun _ => Books := by
  constructor
  · intro labels steps _ _
    exact Books.idle (.emit steps)
  · intro labels what
    exact Books.idle (.record what)
  · intro labels target _ kind index
    exact Books.idle (.loadRef target kind index)
  · intro labels kind _ subject state books
    refine (Books.idle (.addTrap kind) subject state books).mono ?_
    intro label after kept
    exact kept.1
  · intro label labels subject state books
    exact books
  · intro labels bank wishes pinned
    exact Books.keeps (stays_takeRegister bank wishes pinned)
  · intro labels pinned
    exact keeps_popRegister pinned
  · intro labels
    exact keeps_dropOperand
  · intro labels depth
    exact Books.idle (.operandType depth)
  · intro labels type reg suits
    exact keeps_pushRegister suits
  · intro labels type value
    exact keeps_pushConst type value
  · intro labels reg allocable
    exact Books.keeps (stays_vacate allocable)
  · intro labels index
    exact keeps_localGet index
  · intro labels index keep
    exact keeps_localSet index keep
  · intro _ labels type signature target
    exact keeps_prepareCall type signature target

theorem disciplined : Discipline fun _ => Books :=
  ⟨routine, keeps_demoteBlock⟩

end Compile

end WasmX64
