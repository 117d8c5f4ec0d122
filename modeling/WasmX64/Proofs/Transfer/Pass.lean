import WasmX64.Proofs.Transfer.Record

/-!
# Passing slots from one layout to another

Recording the passages of a transfer never fails, and executing what has been
recorded delivers the value of every source slot to its target slot.
-/

namespace WasmX64

namespace TransferM

open Transfer

section Passing

variable {start machine entry : Processor} {base : Nat} {done rest : List Passage}
  {passage : Passage} {transfer : Transfer} {code : Code}

theorem value_of_frame (recorded : Recorded start base done transfer machine)
    (passable : Passable base start (done ++ passage :: rest))
    (room : base + 32 ≤ frameLimit) (framed : passage.source.place = .frame) :
    passage.source.type.clip (machine.slotWord passage.sourceIndex) =
      start.slotValue passage.source passage.sourceIndex := by
  have here := (passable.below passage passable.member).2 framed
  rw [recorded.slotWord_eq (by omega) fun earlier before writes => ?_]
  · simp [Processor.slotValue, framed]
  have below := (passable.below earlier (List.mem_append_left _ before)).1 writes.1
  exact ⟨by omega, ((passable.unwritten before).1 writes.1).2⟩

theorem value_of_reg (recorded : Recorded start base done transfer machine)
    (proper : passage.source.Proper) {reg : Register}
    (held : passage.source.place = .reg reg) :
    machine.regs reg = start.regs reg := by
  have allocable := (proper.fits reg held).1
  refine recorded.regs reg ?_ ?_
  · rintro rfl
    exact absurd allocable (by decide)
  · rintro rfl
    exact absurd allocable (by decide)

end Passing

end TransferM

namespace Transfer

/-- The transfer with the write of a frame slot noted. -/
def noteWrite (transfer : Transfer) (index : Int) : Transfer :=
  { transfer.needSlot index with slotWrites := index :: transfer.slotWrites }

def scratch (type : ValueType) : Register := if type.isFloat then .xmm15 else .r10

theorem scratch_suits {type : ValueType} (valid : type.isValid = true) :
    Suits type (scratch type) := by
  refine ⟨valid, ?_, ?_⟩
  · unfold scratch
    split <;> decide
  · unfold scratch ValueType.regClass
    split <;> decide

theorem Reached.noteWrite {code : Code} {entry machine : Processor} {transfer : Transfer}
    (reached : Reached code entry transfer machine) (index : Int) :
    Reached code entry (transfer.noteWrite index) machine :=
  reached.congr (TransferM.code_needSlot transfer index)

end Transfer

namespace TransferM

open Transfer

section Writing

variable {transfer : Transfer} {source : Slot} {targetIndex sourceIndex : Int}

theorem writeSlot_frame (place : source.place = .frame)
    (unread : targetIndex ∉ transfer.slotReads)
    (unwritten : sourceIndex ∉ transfer.slotWrites) :
    writeSlot source targetIndex sourceIndex transfer =
      .ok () (((transfer.emit (Sequence.fill source.type (scratch source.type)
        sourceIndex)).emit (Sequence.spill source.type targetIndex
          (scratch source.type))).noteWrite targetIndex) := by
  have notRead : transfer.slotReads.contains targetIndex = false := by simpa using unread
  have notWritten : transfer.slotWrites.contains sourceIndex = false := by
    simpa using unwritten
  rw [writeSlot]
  simp only [EStateM.bind_run, EStateM.get_run, EStateM.ite_run, notRead, place,
    Bool.false_eq_true, if_false, notWritten, EStateM.modify_run]
  rfl

theorem writeSlot_reg {reg : Register} (place : source.place = .reg reg)
    (unread : targetIndex ∉ transfer.slotReads) :
    writeSlot source targetIndex sourceIndex transfer =
      .ok () ((transfer.emit (Sequence.spill source.type targetIndex reg)).noteWrite
        targetIndex) := by
  have notRead : transfer.slotReads.contains targetIndex = false := by simpa using unread
  rw [writeSlot]
  simp only [EStateM.bind_run, EStateM.get_run, EStateM.ite_run, notRead, place,
    Bool.false_eq_true, if_false, EStateM.modify_run]
  rfl

theorem writeSlot_const {value : Int32} (place : source.place = .const value)
    (unread : targetIndex ∉ transfer.slotReads) :
    writeSlot source targetIndex sourceIndex transfer =
      .ok () ((transfer.emit (Sequence.spillConstant source.type targetIndex
        (Slot.constBits source.type value))).noteWrite targetIndex) := by
  have notRead : transfer.slotReads.contains targetIndex = false := by simpa using unread
  rw [writeSlot]
  simp only [EStateM.bind_run, EStateM.get_run, EStateM.ite_run, notRead, place,
    Bool.false_eq_true, if_false, EStateM.modify_run]
  rfl

end Writing

section Passing

variable {start machine entry : Processor} {base : Nat} {done rest : List Passage}
  {passage : Passage} {transfer : Transfer} {code : Code}

theorem writeSlot_records (passable : Passable base start (done ++ passage :: rest))
    (room : base + 32 ≤ frameLimit)
    (recorded : Recorded start base done transfer machine)
    (reached : Reached code entry transfer machine) (writes : passage.Writes) :
    ∃ after final, writeSlot passage.source passage.targetIndex passage.sourceIndex transfer =
        .ok () after ∧
      Reached code entry after final ∧
      Recorded start base (done ++ [passage]) after final := by
  have sound := passable.sound passage passable.member
  obtain ⟨targetBelow, sourceBelow⟩ := passable.below passage passable.member
  have bound : base ≤ frameLimit := by omega
  have targetSmall := Nat.lt_of_lt_of_le (targetBelow writes.1) bound
  have unread : (passage.targetIndex : Int) ∉ transfer.slotReads := by
    intro member
    obtain ⟨earlier, before, _, _, same⟩ := recorded.slotReads _ member
    exact (passable.unwritten before).2 writes.1 (by omega)
  cases place : passage.source.place with
  | unknown c => exact absurd place (sound.source.known c)
  | frame =>
    have unwritten : (passage.sourceIndex : Int) ∉ transfer.slotWrites := by
      intro member
      obtain ⟨earlier, before, written, same⟩ := recorded.slotWrites _ member
      exact ((passable.unwritten before).1 written.1).2 (by omega)
    have suits := scratch_suits sound.source.valid
    have sourceSmall := Nat.lt_of_lt_of_le (sourceBelow place) bound
    obtain ⟨_, fills⟩ := Sequence.fill_runs suits sourceSmall machine
    obtain ⟨_, spills⟩ := Sequence.spill_runs suits targetSmall
      (machine.setReg (scratch passage.source.type)
        (passage.source.type.clip (machine.slotWord passage.sourceIndex)))
    refine ⟨_, _, writeSlot_frame place unread unwritten,
      ((reached.emit fills).emit spills).noteWrite _, ?_⟩
    refine recorded.write passable bound writes ?_ ?_ ?_ _
    · intro reg notGeneral notVector
      rw [Processor.regs_setReg, if_neg]
      unfold scratch
      split
      · exact notVector
      · exact notGeneral
    · rfl
    · rw [Processor.regs_setReg, if_pos rfl, ValueType.clip_clip]
      exact value_of_frame recorded passable room place
  | reg reg =>
    obtain ⟨_, spills⟩ :=
      Sequence.spill_runs (sound.source.suits place) targetSmall machine
    refine ⟨_, _, writeSlot_reg place unread, (reached.emit spills).noteWrite _, ?_⟩
    refine recorded.write passable bound writes (fun _ _ _ => rfl) rfl ?_ _
    rw [value_of_reg recorded sound.source place]
    simp [Processor.slotValue, place]
  | const value =>
    obtain ⟨_, stored, spills, same⟩ := Sequence.spillConstant_runs
      (sound.source.integer value place) targetSmall value machine
    refine ⟨_, _, writeSlot_const place unread, (reached.emit spills).noteWrite _, ?_⟩
    refine recorded.write passable bound writes (fun _ _ _ => rfl) rfl ?_ _
    rw [same]
    simp [Processor.slotValue, place]

/-- Passages into one register come from one register, or both from frame slots. -/
theorem shared_source (passable : Passable base start (done ++ passage :: rest)) {reg : Register}
    (held : passage.target.place = .reg reg) {earlier : Passage} (before : earlier ∈ done)
    (earlierHeld : earlier.target.place = .reg reg) :
    (∃ own, earlier.source.place = .reg own ∧ passage.source.place = .reg own) ∨
      (earlier.source.place = .frame ∧ passage.source.place = .frame) := by
  have inside : earlier ∈ done ++ passage :: rest := List.mem_append_left _ before
  rcases passable.shared earlier inside passage passable.member reg earlierHeld held with
    same | common | ⟨earlierFrame, frame, _⟩
  · subst same
    exact absurd before passable.fresh
  · exact .inl common
  · exact .inr ⟨earlierFrame, frame⟩

section Loading

variable (passable : Passable base start (done ++ passage :: rest))
  (recorded : Recorded start base done transfer machine)
  (reached : Reached code entry transfer machine) {reg : Register}
  (held : passage.target.place = .reg reg)
include passable recorded reached held

theorem loadInto_frame_records (place : passage.source.place = .frame) :
    ∃ after, loadInto reg passage.source passage.sourceIndex transfer = .ok () after ∧
      Reached code entry after machine ∧
      Recorded start base (done ++ [passage]) after machine := by
  have sound := passable.sound passage passable.member
  have suits := sound.target.suits held
  have unwritten : (passage.sourceIndex : Int) ∉ transfer.slotWrites := by
    intro member
    obtain ⟨earlier, before, written, same⟩ := recorded.slotWrites _ member
    exact ((passable.unwritten before).1 written.1).2 (by omega)
  have asked : passage.load? = some (.slot passage.source.type passage.sourceIndex) := by
    simp [Passage.load?, place]
  have reads : ∀ index, index ∈ (passage.sourceIndex : Int) :: transfer.slotReads →
      index ∈ transfer.slotReads ∨ passage.source.place = .frame ∧ index = passage.sourceIndex := by
    intro index member
    rcases List.mem_cons.mp member with here | before
    · exact .inr ⟨place, here⟩
    · exact .inl before
  cases loaded : transfer.loadTargets.has reg with
  | true =>
    refine ⟨{ transfer with slotReads := passage.sourceIndex :: transfer.slotReads }, ?_,
      reached.congr rfl, ?_⟩
    · rw [loadInto, place]
      exact loadSlot_again unwritten loaded
    · refine recorded.load held suits.machine asked rfl rfl rfl ?_ ?_ rfl reads rfl
      · apply RegSet.ext
        intro other
        by_cases same : other = reg
        · simp [same, loaded]
        · simp [same]
      · intro other
        rw [if_neg (by simp [loaded])]
        rfl
  | false =>
    refine ⟨transfer.recordLoad reg passage.source.type passage.sourceIndex, ?_,
      reached.congr rfl, ?_⟩
    · rw [loadInto, place]
      exact loadSlot_run suits.machine unwritten loaded
    · refine recorded.load held suits.machine asked rfl rfl rfl rfl ?_ rfl reads rfl
      intro other
      simp only [loaded, and_true]
      exact loadInto_setLoad suits.machine _ other

theorem loadInto_const_records {value : Int32} (place : passage.source.place = .const value) :
    ∃ after, loadInto reg passage.source passage.sourceIndex transfer = .ok () after ∧
      Reached code entry after machine ∧
      Recorded start base (done ++ [passage]) after machine := by
  have suits := (passable.sound passage passable.member).target.suits held
  have asked : passage.load? = some (.const passage.source.type value) := by
    simp [Passage.load?, place]
  have unloaded : transfer.loadTargets.has reg = false := by
    cases loaded : transfer.loadTargets.has reg with
    | false => rfl
    | true =>
      obtain ⟨earlier, before, earlierHeld, _⟩ := recorded.loads reg loaded
      rcases shared_source passable held before earlierHeld with ⟨own, _, common⟩ | ⟨_, common⟩
      · rw [place] at common
        cases common
      · rw [place] at common
        cases common
  refine ⟨{ transfer with loadTargets := transfer.loadTargets.insert reg }.setLoad reg
    (.const passage.source.type value), ?_, reached.congr rfl, ?_⟩
  · rw [loadInto, place]
    exact loadConst_run suits.machine unloaded
  · refine recorded.load held suits.machine asked rfl rfl rfl rfl ?_ rfl
      (fun index member => .inl member) rfl
    intro other
    simp only [unloaded, and_true]
    exact loadInto_setLoad suits.machine _ other

section Moves

variable {own : Register} (place : passage.source.place = .reg own) (different : reg ≠ own)
include place different

theorem moveRegister_new_records (has : transfer.moveTargets.has reg = false) :
    ∃ after, moveRegister reg own passage.source.type transfer = .ok () after ∧
      Reached code entry after machine ∧
      Recorded start base (done ++ [passage]) after machine := by
  have sound := passable.sound passage passable.member
  have suits := sound.target.suits held
  have sourceSuits := sound.source.suits place
  refine ⟨transfer.recordMove reg ⟨own, passage.source.type⟩,
    moveRegister_new suits.machine sourceSuits.machine has, reached.congr rfl, ?_⟩
  have here : (transfer.recordMove reg ⟨own, passage.source.type⟩).moveInto reg =
      ⟨own, passage.source.type⟩ := by
    rw [moveInto_recordMove suits.machine, if_pos rfl]
  refine recorded.between held place different ?_ ?_ ?_ ?_ ?_ ?_ ?_
    (recorded.counted.recordMove suits.machine sourceSuits.machine has) rfl rfl rfl rfl rfl
  · intro other
    change (transfer.moveTargets.insert reg).has other = _
    simp [suits.machine]
  · intro other different
    rw [moveInto_recordMove suits.machine, if_neg different]
  · rw [here]
  · intro contrary
    rw [has] at contrary
    cases contrary
  · rw [here]
    exact sound.type ▸ suits
  · intro contrary
    rw [has] at contrary
    cases contrary
  · rw [here]
    exact id

theorem moveRegister_again_records (has : transfer.moveTargets.has reg = true) :
    ∃ after, moveRegister reg own passage.source.type transfer = .ok () after ∧
      Reached code entry after machine ∧
      Recorded start base (done ++ [passage]) after machine := by
  have sound := passable.sound passage passable.member
  have suits := sound.target.suits held
  obtain ⟨earlier, before, earlierHeld, other, otherPlace, otherDifferent⟩ :=
    (recorded.moves reg).mp has
  obtain ⟨source, earlierSuits, _⟩ :=
    recorded.move earlier before reg other earlierHeld otherPlace otherDifferent
  have agrees : (transfer.moveInto reg).source = own := by
    rcases shared_source passable held before earlierHeld with ⟨third, here, there⟩ | ⟨_, framed⟩
    · rw [otherPlace] at here
      rw [place] at there
      cases here
      cases there
      exact source
    · rw [place] at framed
      cases framed
  have targets : ∀ other, transfer.moveTargets.has other =
      (transfer.moveTargets.has other || decide (other = reg)) := by
    intro other
    by_cases here : other = reg
    · simp [here, has]
    · simp [here]
  refine ⟨_, moveRegister_again has agrees, ?_, ?_⟩
  · split
    · exact reached.congr rfl
    · exact reached
  cases wide : passage.source.type.is64 with
  | true =>
    have here : (transfer.setMove reg
        { transfer.moveInto reg with type := passage.source.type }).moveInto reg =
        { transfer.moveInto reg with type := passage.source.type } := by
      rw [moveInto_setMove suits.machine, if_pos rfl]
    rw [if_pos rfl]
    refine recorded.between held place different targets ?_ ?_ (fun _ => agrees) ?_ ?_ ?_
      (recorded.counted.widen suits.machine _) rfl rfl rfl rfl rfl
    · intro other different
      rw [moveInto_setMove suits.machine, if_neg different]
    · rw [here]
      exact agrees
    · rw [here]
      exact sound.type ▸ suits
    · rw [here]
      exact fun _ _ => wide
    · rw [here]
      exact id
  | false =>
    rw [if_neg (by simp)]
    refine recorded.between held place different targets (fun _ _ => rfl) agrees
      (fun _ => agrees) earlierSuits (fun _ => id) ?_ recorded.counted rfl rfl rfl rfl rfl
    intro contrary
    rw [wide] at contrary
    cases contrary

end Moves

theorem loadInto_records :
    ∃ after, loadInto reg passage.source passage.sourceIndex transfer = .ok () after ∧
      Reached code entry after machine ∧
      Recorded start base (done ++ [passage]) after machine := by
  have sound := passable.sound passage passable.member
  cases place : passage.source.place with
  | unknown c => exact absurd place (sound.source.known c)
  | frame => exact loadInto_frame_records passable recorded reached held place
  | const value => exact loadInto_const_records passable recorded reached held place
  | reg own =>
    have banks : ¬ (reg.regClass ≠ own.regClass) := by
      rw [(sound.target.suits held).bank, (sound.source.suits place).bank, sound.type]
      simp
    by_cases same : reg = own
    · subst same
      refine ⟨transfer, ?_, reached, recorded.skip ?_ ?_⟩
      · rw [loadInto, place]
        simp only [ne_eq, not_true_eq_false, if_false, EStateM.pure_run]
      · intro framed
        rw [held] at framed
        cases framed
      · intro other otherHeld
        rw [held] at otherHeld
        cases otherHeld
        exact place
    have opened : loadInto reg passage.source passage.sourceIndex transfer =
        moveRegister reg own passage.source.type transfer := by
      rw [loadInto, place]
      simp only [if_neg banks, ne_eq, same, not_false_eq_true, if_true]
    rw [opened]
    cases has : transfer.moveTargets.has reg with
    | false => exact moveRegister_new_records passable recorded reached held place same has
    | true => exact moveRegister_again_records passable recorded reached held place same has

end Loading

theorem transferSlot_records (passable : Passable base start (done ++ passage :: rest))
    (room : base + 32 ≤ frameLimit)
    (recorded : Recorded start base done transfer machine)
    (reached : Reached code entry transfer machine) :
    ∃ after final, transferSlot passage.target passage.source passage.targetIndex
        passage.sourceIndex transfer = .ok () after ∧
      Reached code entry after final ∧
      Recorded start base (done ++ [passage]) after final := by
  have sound := passable.sound passage passable.member
  cases place : passage.target.place with
  | unknown c => exact absurd place (sound.target.known c)
  | reg reg =>
    rw [transferSlot, place]
    obtain ⟨after, loads, still, records⟩ := loadInto_records passable recorded reached place
    exact ⟨after, machine, loads, still, records⟩
  | const value =>
    have same := sound.const value place
    refine ⟨transfer, machine, ?_, reached, recorded.skip ?_ ?_⟩
    · rw [transferSlot, place]
      simp only [same, if_true, EStateM.pure_run]
    · intro framed
      rw [place] at framed
      cases framed
    · intro reg held
      rw [place] at held
      cases held
  | frame =>
    by_cases still : passage.source.place = .frame ∧
        passage.targetIndex = passage.sourceIndex
    · refine ⟨transfer, machine, ?_, reached, recorded.skip ?_ ?_⟩
      · have stays : passage.source.place = .frame ∧
            (passage.targetIndex : Int) = passage.sourceIndex :=
          ⟨still.1, by rw [still.2]⟩
        rw [transferSlot, place]
        simp only [stays, and_self, if_true, EStateM.pure_run]
      · intro _
        rw [sound.type, still.2]
        exact value_of_frame recorded passable room still.1
      · intro reg held
        rw [place] at held
        cases held
    · have moves : ¬ (passage.source.place = .frame ∧
          (passage.targetIndex : Int) = passage.sourceIndex) := by
        rintro ⟨framed, same⟩
        exact still ⟨framed, by omega⟩
      rw [transferSlot, place]
      simp only [moves, if_false]
      exact writeSlot_records passable room recorded reached ⟨place, still⟩

end Passing

/-- Records passages one after the other. -/
def transferAll : List Passage → TransferM Unit
  | [] => pure ()
  | passage :: rest => do
    transferSlot passage.target passage.source passage.targetIndex passage.sourceIndex
    transferAll rest

theorem transferAll_records {start machine entry : Processor} {base : Nat}
    {done rest : List Passage} {transfer : Transfer} {code : Code}
    (passable : Passable base start (done ++ rest)) (room : base + 32 ≤ frameLimit)
    (recorded : Recorded start base done transfer machine)
    (reached : Reached code entry transfer machine) :
    ∃ after final, transferAll rest transfer = .ok () after ∧
      Reached code entry after final ∧ Recorded start base (done ++ rest) after final := by
  induction rest generalizing done transfer machine with
  | nil =>
    refine ⟨transfer, machine, rfl, reached, ?_⟩
    rw [List.append_nil]
    exact recorded
  | cons passage rest ih =>
    obtain ⟨middle, between, first, middleReached, middleRecorded⟩ :=
      transferSlot_records passable room recorded reached
    have regrouped : done ++ passage :: rest = done ++ [passage] ++ rest := by simp
    rw [regrouped] at passable
    obtain ⟨after, final, others, result⟩ := ih passable middleRecorded middleReached
    refine ⟨after, final, ?_, ?_⟩
    · rw [transferAll, EStateM.bind_ok first]
      exact others
    · rw [regrouped]
      exact result

end TransferM

end WasmX64
