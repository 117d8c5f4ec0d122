import WasmX64.Proofs.Execution.Registers

/-!
# Growing memory

The code of `memory.grow` adds to the size cell unless the sum is above a limit.  The limit is a
32-bit immediate, which the comparison extends with its sign: a maximum of 2^31 pages or more
lets everything through.
-/

namespace WasmX64

theorem shiftLeft_pages (pages : Nat) :
    BitVec.ofNat 64 pages <<< 16 = BitVec.ofNat 64 (pages * pageSize) := by
  apply BitVec.eq_of_toNat_eq
  simp [Nat.shiftLeft_eq, pageSize]

theorem shiftRight_pages {pages : Nat} (few : pages < 2 ^ 48) :
    BitVec.ofNat 64 (pages * pageSize) >>> 16 = BitVec.ofNat 64 pages := by
  have small : pages * pageSize < 2 ^ 64 := by
    unfold pageSize
    omega
  apply BitVec.eq_of_toNat_eq
  simp only [BitVec.toNat_ushiftRight, BitVec.toNat_ofNat, Nat.mod_eq_of_lt small,
    Nat.shiftRight_eq_div_pow]
  unfold pageSize
  omega

/-- The largest size in pages that the comparison with a maximum lets through. -/
def growthLimit (maxPages : UInt32) : Nat := (maxPages.toBitVec.signExtend 64).toNat

theorem growthLimit_of_lt {maxPages : UInt32} (small : maxPages.toNat < 2 ^ 31) :
    growthLimit maxPages = maxPages.toNat := by
  have positive : maxPages.toBitVec.msb = false := by
    rw [BitVec.msb_eq_decide, decide_eq_false_iff_not]
    exact Nat.not_le_of_lt small
  rw [growthLimit, BitVec.signExtend_eq_setWidth_of_msb_false positive,
    BitVec.toNat_setWidth_of_le (by decide)]
  rfl

theorem growthLimit_of_le {maxPages : UInt32} (large : 2 ^ 31 ≤ maxPages.toNat) :
    growthLimit maxPages = 2 ^ 64 - 2 ^ 32 + maxPages.toNat := by
  have negative : maxPages.toBitVec.msb = true := by
    rw [BitVec.msb_eq_decide, decide_eq_true_eq]
    exact large
  rw [growthLimit, BitVec.toNat_signExtend, if_pos negative,
    BitVec.toNat_setWidth_of_le (by decide)]
  rw [Nat.add_comm]
  rfl

namespace Processor

/-- The size of memory in bytes. -/
def memorySize (machine : Processor) (addresses : RefKind → UInt32 → BitVec 64) : BitVec 64 :=
  machine.memory.read (addresses .memorySize 0) 8

/-- The outcome of growing memory from `old` pages by `more`, with a limit. -/
def Grown (addresses : RefKind → UInt32 → BitVec 64) (dst : Register) (old more limit : Nat)
    (before after : Processor) : Prop :=
  if old + more ≤ limit then
    after.regs dst = BitVec.ofNat 64 old ∧
      after.memorySize addresses = BitVec.ofNat 64 ((old + more) * pageSize)
  else
    after.regs dst = 0xffffffff ∧ after.memorySize addresses = before.memorySize addresses

theorem follow_growSequence (maxPages : UInt32) {dst cell delta : Register} {machine : Processor}
    {old more : Nat} (dstFree : dst ≠ .r10) (cellFree : cell ≠ .r10) (deltaFree : delta ≠ .r10)
    (present : cell ≠ .absent) (smallOld : old < 2 ^ 32) (smallMore : more < 2 ^ 32)
    (holdsOld : machine.regs dst = BitVec.ofNat 64 old)
    (holdsMore : machine.regs delta = BitVec.ofNat 64 more) :
    ∃ next, follow none machine (Compile.growSequence maxPages dst cell delta) =
        some (.falls next) ∧
      (∀ other, other ≠ dst → other ≠ .r10 → next.regs other = machine.regs other) ∧
      if old + more ≤ growthLimit maxPages then
        next.regs dst = BitVec.ofNat 64 old ∧
          next.memory = machine.memory.write (machine.regs cell) 8
            (BitVec.ofNat 64 ((old + more) * pageSize))
      else next.regs dst = 0xffffffff ∧ next.memory = machine.memory := by
  have sum : BitVec.ofNat 64 old + BitVec.ofNat 64 more = BitVec.ofNat 64 (old + more) :=
    (BitVec.ofNat_add old more).symm
  have total : (BitVec.ofNat 64 (old + more)).toNat = old + more := by
    rw [BitVec.toNat_ofNat, Nat.mod_eq_of_lt (by omega)]
  have limit : (BitVec.ofInt 64 maxPages.toInt32.toInt).toNat = growthLimit maxPages := rfl
  simp only [Compile.growSequence, follow_emit, perform_mov_i64, perform_add_i64,
    perform_cmpImm_i64, Option.bind_some, follow_jumpIf_inner, Condition.holds_above, limit,
    regs_setReg, if_true, if_neg deltaFree, holdsOld, holdsMore, sum, total]
  by_cases above : growthLimit maxPages < old + more
  · have beyond : ¬ old + more ≤ growthLimit maxPages := by omega
    simp only [above, beyond, decide_true, if_true, if_false]
    refine ⟨_, rfl, ?_, ?_, rfl⟩
    · intro other notDst notScratch
      simp [notDst, notScratch]
    · simp only [regs_setReg, if_true]
      decide
  · have inside : old + more ≤ growthLimit maxPages := by omega
    simp only [above, inside, decide_false, Bool.false_eq_true, if_true, if_false, follow_emit,
      perform_shl16, perform_store, Option.bind_some, effective_base _ present, regs_setReg,
      shiftLeft_pages]
    refine ⟨_, rfl, ?_, ?_, ?_⟩
    · intro other notDst notScratch
      simp [notScratch]
    · simp [dstFree, holdsOld]
    · simp only [store, memory_setReg, if_neg cellFree]
      rfl

theorem followParts_loadPages {addresses : RefKind → UInt32 → BitVec 64} {dst cell : Register}
    (machine : Processor) (present : cell ≠ .absent) :
    ∃ next, machine.followParts addresses [.address cell .memorySize 0,
          .steps [.emit (.load .i64 dst (.based cell 0)), .emit (.shiftImm .shr .i64 dst 16)]] =
        some (.falls next) ∧
      next.regs dst = machine.memorySize addresses >>> 16 ∧ next.memory = machine.memory ∧
      (cell ≠ dst → next.regs cell = addresses .memorySize 0) ∧
      ∀ other, other ≠ dst → other ≠ cell → next.regs other = machine.regs other := by
  simp only [followParts, follow_emit, perform_load, perform_shr16, Option.bind_some, follow_nil,
    effective_base _ present, regs_setReg, if_true]
  refine ⟨_, rfl, ?_, rfl, ?_, ?_⟩
  · rw [regs_setReg, if_pos rfl]
    rfl
  · intro different
    simp [different]
  · intro other notDst notCell
    simp [notDst, notCell]

theorem followParts_growth {addresses : RefKind → UInt32 → BitVec 64} {layout : Layout}
    {dst cell delta : Register} {old more : Nat} (maxPages : UInt32) (machine : Processor)
    (sound : layout.Sound) (dstLoose : layout.Loose dst) (cellLoose : layout.Loose cell)
    (dstFree : dst ≠ .r10) (cellFree : cell ≠ .r10) (deltaFree : delta ≠ .r10)
    (present : cell ≠ .absent) (apart : cell ≠ dst) (deltaApart : delta ≠ dst ∧ delta ≠ cell)
    (smallOld : old < 2 ^ 32) (smallMore : more < 2 ^ 32)
    (holdsMore : machine.regs delta = BitVec.ofNat 64 more)
    (size : machine.memorySize addresses = BitVec.ofNat 64 (old * pageSize))
    (aside : machine.Aside layout.height (addresses .memorySize 0) 8) :
    ∃ next, machine.followParts addresses [.address cell .memorySize 0,
          .steps [.emit (.load .i64 dst (.based cell 0)), .emit (.shiftImm .shr .i64 dst 16)],
          .steps (Compile.growSequence maxPages dst cell delta)] = some (.falls next) ∧
      Grown addresses dst old more (growthLimit maxPages) machine next ∧
      Layout.Persists (within (addresses .memorySize 0) 8) layout.height layout layout
        machine next := by
  obtain ⟨middle, loads, pages, memory, address, others⟩ :=
    @followParts_loadPages addresses dst cell machine present
  rw [size, shiftRight_pages (by omega)] at pages
  have holds : middle.regs delta = BitVec.ofNat 64 more := by
    rw [others delta deltaApart.1 deltaApart.2, holdsMore]
  obtain ⟨next, follows, rest, outcome⟩ := follow_growSequence maxPages dstFree cellFree
    deltaFree present smallOld smallMore pages holds
  have scratchLoose : layout.Loose .r10 :=
    sound.loose_of_reserved (by decide) (by decide) (by decide)
  have loaded : Layout.Persists (within (addresses .memorySize 0) 8) layout.height layout layout
      machine middle := by
    apply Layout.Persists.of_loose memory
    intro reg tight
    apply others
    · rintro rfl
      exact tight dstLoose
    · rintro rfl
      exact tight cellLoose
  have same : ∀ reg, ¬ layout.Loose reg → next.regs reg = middle.regs reg := by
    intro reg tight
    apply rest
    · rintro rfl
      exact tight dstLoose
    · rintro rfl
      exact tight scratchLoose
  refine ⟨next, ?_, ?_, loaded.trans ?_⟩
  · have parts := @followParts_falls addresses machine middle _
      [.steps (Compile.growSequence maxPages dst cell delta)] loads
    exact parts.trans (followParts_steps follows)
  · unfold Grown
    split at outcome
    · rename_i inside
      rw [if_pos inside]
      refine ⟨outcome.1, ?_⟩
      rw [memorySize, outcome.2, address apart, ByteMemory.read_write _ _ _ (by decide),
        narrow_eq_self]
    · rename_i beyond
      rw [if_neg beyond]
      refine ⟨outcome.1, ?_⟩
      rw [memorySize, outcome.2, memory]
      rfl
  · split at outcome
    · have written := @Layout.Persists.write layout.height layout (addresses .memorySize 0)
        (BitVec.ofNat 64 ((old + more) * pageSize)) 8 middle (loaded.aside aside)
      refine written.trans (Layout.Persists.of_loose ?_ same)
      rw [outcome.2, address apart]
    · exact Layout.Persists.of_loose outcome.2 same

end Processor

namespace Compile

variable {subject : Subject} {state : Compilation}

theorem demandMemory_compiles {post : Unit → Compilation → List Part → Prop}
    (memory : subject.module.memory.isSome = true) (holds : post () state []) :
    Compiles demandMemory subject state post := by
  have present : ¬ subject.module.memory.isNone = true := by
    rw [Option.isNone_iff_eq_none, ← ne_eq, Option.ne_none_iff_isSome]
    exact memory
  refine .bind (.read ?_)
  rw [if_neg present]
  exact .pure holds

theorem lowerMemoryGrow_compiles (orderly : Orderly subject state)
    (memory : subject.module.memory.isSome = true) (offers : Offers state [.i32])
    (grows : subject.host.maxPages ≠ 0) :
    Compiles lowerMemoryGrow subject state fun _ after parts =>
      ∃ dst, after.layout.top? = some (.inReg .i32 dst) ∧
        ∀ addresses (machine : Processor) old more, old < 2 ^ 32 → more < 2 ^ 32 →
          (∀ slot, state.layout.top? = some slot → machine.Clean slot) →
          state.layout.operand machine 0 = BitVec.ofNat 64 more →
          machine.memorySize addresses = BitVec.ofNat 64 (old * pageSize) →
          machine.Aside state.layout.height (addresses .memorySize 0) 8 →
          ∃ next, machine.followParts addresses parts = some (.falls next) ∧
            Processor.Grown addresses dst old more (growthLimit subject.host.maxPages)
              machine next ∧
            Layout.Persists (within (addresses .memorySize 0) 8) (state.layout.height - 1)
              state.layout after.layout machine next := by
  refine .bind (demandMemory_compiles memory (.bind (offers.expect orderly.books rfl (.bind
    (.read ?_)))))
  rw [if_neg grows]
  obtain ⟨spare, suits, _⟩ := @exists_spare .gp [] (by decide)
  refine .bind ((popRegister_compiles orderly offers suits (RegSet.has_empty spare)).mono ?_)
  rintro delta popped popping ⟨slot, top, type, pops⟩
  refine .machine fun events => ?_
  obtain ⟨spare, suits, apart⟩ := @exists_spare .gp [delta] (by simp)
  have noted : Orderly subject { popped with events } :=
    pops.orderly.keep rfl rfl
  refine .bind ((takeRegister_compiles noted suits ?_).mono ?_)
  · simpa [RegSet.has_single] using fun _ => apart delta
  intro cell celled celling taken
  obtain ⟨spare, suits, apart⟩ := @exists_spare .gp [delta, cell] (by simp)
  refine .bind ((takeRegister_compiles taken.orderly suits ?_).mono ?_)
  · simp [RegSet.has_single, apart delta, apart cell]
  intro dst ready freeing free
  refine .bind (.bind (.loadRef fun output refs => .emit ?_))
  refine .bind (.emit (.modifyLayout fun _ => ⟨dst, top?_push _ _, ?_⟩))
  intro addresses machine old more smallOld smallMore clean operand size aside
  obtain ⟨first, popRuns, popPersists, _, _, value⟩ := pops.follows addresses machine
  obtain ⟨second, cellRuns, cellRegs, cellPersists⟩ := taken.spills.follows addresses first
  obtain ⟨third, dstRuns, dstRegs, dstPersists⟩ := free.spills.follows addresses second
  have celledHeight : celled.layout.height = popped.layout.height := taken.spills.height
  have readyHeight : ready.layout.height = popped.layout.height :=
    free.spills.height.trans celledHeight
  have lower : popped.layout.height = state.layout.height - 1 := by
    have height := pops.height
    omega
  change Layout.Persists nowhere popped.layout.height popped.layout _ _ _ at cellPersists
  rw [celledHeight] at dstPersists
  have persists : Layout.Persists nowhere popped.layout.height state.layout ready.layout machine
      third := (popPersists.trans cellPersists).trans dstPersists
  have below : machine.Aside popped.layout.height (addresses .memorySize 0) 8 := by
    intro offset inside index small
    exact aside offset inside index (by omega)
  have holds : third.regs delta = BitVec.ofNat 64 more := by
    rw [dstRegs, cellRegs, value (clean slot top), ← operand, lower, Layout.operand_top top]
  have sized : third.memorySize addresses = BitVec.ofNat 64 (old * pageSize) := by
    rw [← size]
    exact persists.read (fun _ _ => id) below
  have sound := free.orderly.books.sound
  have celledLoose := taken.orderly.books.sound.loose_of_isFree taken.free
  have outside := persists.aside below
  rw [← readyHeight] at outside
  have deltaMachine := Register.isMachine_of_isAllocable pops.suits.1
  have cellMachine := Register.isMachine_of_isAllocable taken.suits.1
  have cellApart : cell ≠ delta := by
    simpa [RegSet.has_single, deltaMachine] using taken.loose
  have dstApart : dst ≠ delta ∧ dst ≠ cell := by
    simpa [RegSet.has_single, deltaMachine, cellMachine] using free.loose
  obtain ⟨next, follows, grown, grownPersists⟩ := Processor.followParts_growth
    subject.host.maxPages third sound (sound.loose_of_isFree free.free)
    (free.spills.loose celledLoose) (free.suits.ne (by decide)) (taken.suits.ne (by decide))
    (pops.suits.ne (by decide)) taken.suits.present dstApart.2.symm
    ⟨dstApart.1.symm, cellApart.symm⟩ smallOld smallMore holds sized outside
  refine ⟨next, ?_, ?_, ?_⟩
  · simp only [List.nil_append, List.append_nil, List.cons_append]
    rw [Processor.followParts_falls popRuns, Processor.followParts_falls cellRuns,
      Processor.followParts_falls dstRuns]
    exact follows
  · simpa only [Processor.Grown, sized, size] using grown
  · have pushed : Layout.Persists (within (addresses .memorySize 0) 8) ready.layout.height
        ready.layout (ready.layout.push (.inReg .i32 dst)) next next :=
      .of_below next fun index small => getElem?_push_of_lt _ small
    rw [readyHeight] at grownPersists pushed
    rw [lower] at persists grownPersists pushed
    exact ((persists.mono fun _ => False.elim).trans grownPersists).trans pushed

end Compile

open Compile

theorem Processor.Grown.memorySize_le {addresses : RefKind → UInt32 → BitVec 64} {dst : Register}
    {old more : Nat} {host : Host} {before after : Processor}
    (grown : Grown addresses dst old more host.maxPages.toNat before after)
    (size : before.memorySize addresses = BitVec.ofNat 64 (old * pageSize))
    (inside : old * pageSize ≤ host.memoryLimit) :
    (after.memorySize addresses).toNat ≤ host.memoryLimit := by
  unfold Grown at grown
  split at grown
  · rename_i low
    have most : host.maxPages.toNat ≤ max host.minPages.toNat host.maxPages.toNat :=
      Nat.le_max_right _ _
    rw [grown.2, BitVec.toNat_ofNat]
    exact Nat.le_trans (Nat.mod_le _ _) (Nat.mul_le_mul_right pageSize (Nat.le_trans low most))
  · rw [grown.2, size, BitVec.toNat_ofNat]
    exact Nat.le_trans (Nat.mod_le _ _) inside

/-- Growing memory with a maximum below 2^31 pages adds to its size exactly if the sum is not
above the maximum, and stays inside what is reserved.  With a larger maximum it always adds. -/
theorem memoryGrow_outcome {subject : Subject} {state : Compilation}
    (orderly : Orderly subject state) (memory : subject.module.memory.isSome = true)
    (offers : Offers state [.i32]) (grows : subject.host.maxPages ≠ 0) :
    ∃ after parts dst, lowerMemoryGrow subject state = .ok () after ∧ state.Gains parts after ∧
      after.layout.top? = some (.inReg .i32 dst) ∧
      ∀ addresses (machine : Processor) old more, old < 2 ^ 32 → more < 2 ^ 32 →
        (∀ slot, state.layout.top? = some slot → machine.Clean slot) →
        state.layout.operand machine 0 = BitVec.ofNat 64 more →
        machine.memorySize addresses = BitVec.ofNat 64 (old * pageSize) →
        machine.Aside state.layout.height (addresses .memorySize 0) 8 →
        ∃ next, machine.followParts addresses parts = some (.falls next) ∧
          (subject.host.maxPages.toNat < 2 ^ 31 →
            Processor.Grown addresses dst old more subject.host.maxPages.toNat machine next ∧
            (old * pageSize ≤ subject.host.memoryLimit →
              (next.memorySize addresses).toNat ≤ subject.host.memoryLimit)) ∧
          (2 ^ 31 ≤ subject.host.maxPages.toNat →
            next.regs dst = BitVec.ofNat 64 old ∧
            next.memorySize addresses = BitVec.ofNat 64 ((old + more) * pageSize)) := by
  obtain ⟨_, after, lowers, parts, gains, dst, top, follows⟩ :=
    lowerMemoryGrow_compiles orderly memory offers grows
  refine ⟨after, parts, dst, lowers, gains, top, ?_⟩
  intro addresses machine old more smallOld smallMore clean operand size aside
  obtain ⟨next, falls, grown, _⟩ :=
    follows addresses machine old more smallOld smallMore clean operand size aside
  refine ⟨next, falls, ?_, ?_⟩
  · intro small
    rw [growthLimit_of_lt small] at grown
    exact ⟨grown, grown.memorySize_le size⟩
  · intro large
    have inside : old + more ≤ growthLimit subject.host.maxPages := by
      rw [growthLimit_of_le large]
      omega
    unfold Processor.Grown at grown
    rw [if_pos inside] at grown
    exact grown

/-- A function without locals of a module with a memory, under a host. -/
def serving (limits : Limits) (host : Host) : Subject :=
  { (default : Subject) with
    module := { Module.declaring #[] with memory := some limits }
    host := host.narrow (some limits) }

/-- A function of a module whose memory may grow to a number of pages. -/
def growing (maxPages : UInt32) : Subject :=
  serving ⟨1, none⟩ { bounds := .dynamic, maxPages }

/-- A constant operand in the body of a function without locals. -/
def offering (value : Int32) : Compilation where
  layout := Layout.push {} (.ofConst .i32 value)
  blocks := [Block.opened [] .block []]

theorem offering_orderly (limits : Limits) (host : Host) (value : Int32) :
    Orderly (serving limits host) (offering value) := by
  have sound : (Layout.push {} (.ofConst .i32 value)).Sound :=
    (Layout.sound_empty 0).push (Layout.fits_ofConst .i32 value)
  refine ⟨⟨sound, Nat.zero_le _, ?_⟩, ?_, ?_⟩
  · intro block member
    rw [List.mem_singleton.mp member]
    exact ⟨Int.le_refl 0, rfl, Layout.sound_empty 0, nofun, fun _ _ => rfl, nofun, nofun, nofun⟩
  · intro slot member
    rw [offering, Layout.slots_push, Array.mem_push] at member
    rcases member with none | rfl
    · exact absurd none (Array.not_mem_empty slot)
    · rfl
  · change 1 ≤ 2 ^ 28
    decide

theorem offering_offers (value : Int32) : Offers (offering value) [.i32] := by
  refine ⟨⟨_, [], rfl, Int.le_refl 1⟩, ?_⟩
  intro depth type found
  obtain ⟨rfl, rfl⟩ : depth = 0 ∧ ValueType.i32 = type := by
    cases depth with
    | zero => exact ⟨rfl, Option.some.inj found⟩
    | succ depth => cases found
  exact ⟨.ofConst .i32 value, rfl, rfl⟩

/-- One address for every run-time object. -/
def oneCell (_ : RefKind) (_ : UInt32) : BitVec 64 := 0x1000

/-- A processor with a frame and a size of memory in pages. -/
def sized (pages : Nat) : Processor where
  regs reg := if reg = .rbp then 0x10000 else 0
  memory := ByteMemory.write (fun _ => 0) 0x1000 8 (BitVec.ofNat 64 (pages * pageSize))

theorem sized_memorySize (pages : Nat) :
    (sized pages).memorySize oneCell = BitVec.ofNat 64 (pages * pageSize) := by
  have back := ByteMemory.read_write (fun _ => 0) 0x1000 (BitVec.ofNat 64 (pages * pageSize))
    (Nat.le_refl 8)
  rw [narrow_eq_self] at back
  exact back

theorem sized_clean (pages : Nat) (value : Int32) :
    ∀ slot, (offering value).layout.top? = some slot → (sized pages).Clean slot := by
  intro slot top reg held
  cases Option.some.inj ((top?_push {} (.ofConst .i32 value)).symm.trans top)
  cases held

theorem sized_aside (pages : Nat) (value : Int32) :
    (sized pages).Aside (offering value).layout.height (oneCell .memorySize 0) 8 := by
  intro offset inside index below
  have first : index = 0 := Nat.lt_one_iff.mp below
  subst first
  change 8 ≤ (0x1000#64 + BitVec.ofNat 64 offset - (0x10000#64 - 8#64)).toNat
  bv_omega

theorem memoryGrow_outcome_three :
    ∃ after parts dst next, lowerMemoryGrow (growing 3) (offering 1) = .ok () after ∧
      (offering 1).Gains parts after ∧
      (sized 2).followParts oneCell parts = some (.falls next) ∧
      Processor.Grown oneCell dst 2 1 3 (sized 2) next := by
  obtain ⟨after, parts, dst, lowers, gains, _, follows⟩ := @memoryGrow_outcome (growing 3)
    (offering 1) (offering_orderly _ _ 1) rfl (offering_offers 1) (by decide)
  obtain ⟨next, falls, grown, _⟩ := follows oneCell (sized 2) 2 1 (by decide) (by decide)
    (sized_clean 2 1) rfl (sized_memorySize 2) (sized_aside 2 1)
  exact ⟨after, parts, dst, next, lowers, gains, falls, (grown (by decide)).1⟩

/-- One page grows by 2^31 although 2^31 pages are the maximum, past what is reserved. -/
theorem memoryGrow_passes_maximum :
    ∃ after parts dst next, lowerMemoryGrow (growing 0x80000000) (offering (-2147483648)) =
        .ok () after ∧
      (offering (-2147483648)).Gains parts after ∧
      (sized 1).followParts oneCell parts = some (.falls next) ∧
      ¬ Processor.Grown oneCell dst 1 (2 ^ 31) (growing 0x80000000).host.maxPages.toNat
        (sized 1) next ∧
      (growing 0x80000000).host.memoryLimit < (next.memorySize oneCell).toNat := by
  obtain ⟨_, after, lowers, parts, gains, dst, top, follows⟩ :=
    @lowerMemoryGrow_compiles (growing 0x80000000) (offering (-2147483648))
      (offering_orderly _ _ _) rfl (offering_offers _) (by decide)
  obtain ⟨next, falls, grown, _⟩ := follows oneCell (sized 1) 1 (2 ^ 31) (by decide) (by decide)
    (sized_clean 1 _) rfl (sized_memorySize 1) (sized_aside 1 _)
  have passes : 1 + 2 ^ 31 ≤ growthLimit (growing 0x80000000).host.maxPages := by decide
  unfold Processor.Grown at grown
  rw [if_pos passes] at grown
  refine ⟨after, parts, dst, next, lowers, gains, falls, ?_, ?_⟩
  · intro declared
    have above : ¬ 1 + 2 ^ 31 ≤ (growing 0x80000000).host.maxPages.toNat := by decide
    unfold Processor.Grown at declared
    rw [if_neg above, grown.1] at declared
    exact absurd declared.1 (by decide)
  · rw [grown.2]
    decide

end WasmX64
