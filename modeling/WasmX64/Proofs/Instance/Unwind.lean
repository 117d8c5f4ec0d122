import WasmX64.Proofs.Instance.Thunk

/-!
# Back to the host

Before the call a thunk keeps the registers of the host on the stack, and its stack pointer and
the address to resume at in the trap cell.  A callee that leaves these words alone brings control
back to the final return with the registers of the host, whether it returns or traps.
-/

namespace WasmX64

namespace Processor

theorem execute_subImm (machine : Processor) (reg : Register) (imm : Int32) :
    machine.execute (.aluImm .sub .i64 reg imm) =
      let result := machine.regs reg - BitVec.ofInt 64 imm.toInt
      some { machine.setReg reg result with
        flags := AluOp.sub.flags (machine.regs reg) (BitVec.ofInt 64 imm.toInt) result } :=
  machine.alu_i64 .sub reg _

theorem executes_addImm (machine : Processor) (reg : Register) (imm : Int32) :
    ∃ next, machine.executes [.aluImm .add .i64 reg imm] = some next ∧
      next.regs reg = machine.regs reg + BitVec.ofInt 64 imm.toInt ∧
      (∀ other, other ≠ reg → next.regs other = machine.regs other) ∧
      next.memory = machine.memory := by
  refine ⟨_, congrArg (Option.bind · _) (machine.alu_i64 .add reg _), ?_, ?_, rfl⟩
  · exact if_pos rfl
  · exact fun other different => if_neg different

/-- What the host finds again: its stack and the registers that it expects unchanged. -/
structure Restored (entry final : Processor) : Prop where
  stack : final.regs .rsp = entry.regs .rsp
  saved : ∀ reg ∈ Thunk.saved, final.regs reg = entry.regs reg

structure Reported (machine : Processor) (cell : UInt64) (kind : TrapKind) (instr : Int)
    (func : UInt32) : Prop where
  kind : machine.memory.read (cell.toBitVec + BitVec.ofInt 64 trapCell.kind.toInt) 4 =
    kind.code.toBitVec.setWidth 64
  instr : machine.memory.read (cell.toBitVec + BitVec.ofInt 64 trapCell.instr.toInt) 4 =
    (BitVec.ofInt 32 instr).setWidth 64
  func : machine.memory.read (cell.toBitVec + BitVec.ofInt 64 trapCell.func.toInt) 4 =
    func.toBitVec.setWidth 64

end Processor

/-- The bits of the result that a callee has returned. -/
def Signature.resultBits (signature : Signature) (machine : Processor) : BitVec 64 :=
  match signature.result with
  | some (.f32, reg) => ValueType.f32.clip (machine.regs reg)
  | some (_, reg) => machine.regs reg
  | none => machine.regs .rax

namespace Thunk

/-- The bytes of the trap cell are none of those that a thunk pushes. -/
def Apart (signature : Signature) (cell : UInt64) (entry : Processor) : Prop :=
  ∀ offset < trapCellSize,
    8 * (7 + signature.words) ≤ entry.depth (cell.toBitVec + BitVec.ofNat 64 offset)

/-- The words that bring back the host are the same in two memories: its registers on the stack,
and the stack pointer and the address to resume at in the trap cell. -/
structure Spares (entry : Processor) (cell : UInt64) (before after : ByteMemory) : Prop where
  stack : ∀ place, entry.depth place < 8 * saved.length → after place = before place
  cell : ∀ offset, 8 ≤ offset → offset < 24 →
    after (cell.toBitVec + BitVec.ofNat 64 offset) =
      before (cell.toBitVec + BitVec.ofNat 64 offset)

/-- The words that bring back the host. -/
structure Awaits (entry : Processor) (cell resume : UInt64) (memory : ByteMemory) : Prop where
  stack : Processor.Stacked memory entry.regs (entry.regs .rsp) saved
  pointer : memory.read (cell.toBitVec + 8) 8 = entry.regs .rsp - 56
  resume : memory.read (cell.toBitVec + 16) 8 = resume.toBitVec

variable {entry : Processor} {cell resume target : UInt64} {signature : Signature}

theorem Awaits.spared {before after : ByteMemory} (awaits : Awaits entry cell resume before)
    (spares : Spares entry cell before after) : Awaits entry cell resume after := by
  have word : ∀ start, 8 ≤ start → start ≤ 16 →
      after.read (cell.toBitVec + BitVec.ofNat 64 start) 8 =
        before.read (cell.toBitVec + BitVec.ofNat 64 start) 8 := by
    intro start low high
    apply ByteMemory.read_congr
    intro offset inside
    rw [BitVec.add_assoc, ← BitVec.ofNat_add]
    exact spares.cell _ (by omega) (by omega)
  constructor
  · exact awaits.stack.congr (by decide) spares.stack
  · exact (word 8 (by omega) (by omega)).trans awaits.pointer
  · exact (word 16 (by omega) (by omega)).trans awaits.resume

/-- A word written into the trap cell leaves the words on the stack. -/
theorem Apart.stacked (apart : Apart signature cell entry) {memory : ByteMemory} (start : Nat)
    (inside : start ≤ 16) (value : BitVec 64)
    (stacked : Processor.Stacked memory entry.regs (entry.regs .rsp) saved) :
    Processor.Stacked (memory.write (cell.toBitVec + BitVec.ofNat 64 start) 8 value) entry.regs
      (entry.regs .rsp) saved := by
  refine stacked.congr (by decide) fun place shallow => ?_
  have outside : ¬ (place - (cell.toBitVec + BitVec.ofNat 64 start)).toNat < 8 := by
    intro hit
    generalize found : (place - (cell.toBitVec + BitVec.ofNat 64 start)).toNat = offset at hit
    have same : place = cell.toBitVec + BitVec.ofNat 64 (start + offset) := by bv_omega
    have deep := apart (start + offset) (by unfold trapCellSize; omega)
    have length : saved.length = 6 := rfl
    rw [← same, Processor.depth] at deep
    omega
  exact if_neg outside

/-- The host is kept, its registers on the stack and the rest in the trap cell; `rbx` points at the
arguments. -/
structure Keeping (entry : Processor) (cell resume : UInt64) (next : Processor) : Prop where
  stack : next.regs .rsp = entry.regs .rsp - 56
  awaits : Awaits entry cell resume next.memory
  arguments : next.regs .rbx = entry.regs .rdi
  memory : ∀ place, 8 * saved.length ≤ entry.depth place →
    trapCellSize ≤ (place - cell.toBitVec).toNat → next.memory place = entry.memory place

/-- The host is kept. -/
theorem executes_saving (apart : Apart signature cell entry) (resume : UInt64) :
    ∃ next, entry.executes (saving cell ++ marking resume) = some next ∧
      Keeping entry cell resume next := by
  obtain ⟨pushed, pushes, lowers, stacked, others⟩ :=
    Processor.executes_pushes (by decide : 8 * saved.length < 2 ^ 64) (by decide) entry
  have top : pushed.regs .rsp - 8 = entry.regs .rsp - 56 := by
    rw [lowers.stack, show saved.length = 6 from rfl]
    bv_omega
  let memory := pushed.memory.write (cell.toBitVec + 8) 8 (pushed.regs .rsp - 8)
  have located : ∀ (machine : Processor) (field : Int32),
      machine.effective (.based .r10 field) = machine.regs .r10 + BitVec.ofInt 64 field.toInt :=
    fun machine field => machine.effective_based field (by decide)
  refine ⟨(({ (pushed.setReg .rsp (pushed.regs .rsp - 8)) with
      flags := AluOp.sub.flags (pushed.regs .rsp) 8 (pushed.regs .rsp - 8)
      memory := memory.write (cell.toBitVec + 16) 8 resume.toBitVec }.setReg .rbx
        (pushed.regs .rdi)).setReg .r10 cell.toBitVec).setReg .r11 resume.toBitVec, ?_, top, ?_,
      others .rdi (by decide), ?_⟩
  · rw [saving, List.append_assoc, Processor.executes_append, pushes, Option.bind_some]
    simp only [marking, List.cons_append, List.nil_append, Processor.executes,
      Processor.execute_subImm, Option.bind_some]
    simp only [Processor.execute, Processor.step, located, Option.bind_some, ValueType.isFloat,
      Bool.false_eq_true, if_false, ValueType.clip_i64]
    rfl
  · constructor
    · exact apart.stacked 16 (by omega) _ (apart.stacked 8 (by omega) _ stacked)
    · have later : (memory.write (cell.toBitVec + 16) 8 resume.toBitVec).read
          (cell.toBitVec + 8) 8 = memory.read (cell.toBitVec + 8) 8 := by
        apply ByteMemory.read_write_of_apart
        intro offset inside
        bv_omega
      have written : memory.read (cell.toBitVec + 8) 8 = pushed.regs .rsp - 8 :=
        (ByteMemory.read_write _ _ _ (Nat.le_refl 8)).trans (narrow_eq_self _)
      exact later.trans (written.trans top)
    · exact (ByteMemory.read_write _ _ _ (Nat.le_refl 8)).trans (narrow_eq_self _)
  · intro place deep outside
    have missed : ∀ start : Nat, start ≤ 16 →
        ¬ (place - (cell.toBitVec + BitVec.ofNat 64 start)).toNat < 8 := by
      intro start inside hit
      unfold trapCellSize at outside
      bv_omega
    exact (if_neg (missed 16 (by omega))).trans
      ((if_neg (missed 8 (by omega))).trans (lowers.memory place deep))

/-- Every argument on the stack is one word. -/
theorem executes_pushing (params : List (Passing × Nat)) (machine : Processor) :
    ∃ next, machine.executes (pushing params) = some next ∧
      machine.Lowers next (params.countP fun param => param.1.onStack) := by
  unfold pushing
  rw [← List.countP_reverse]
  induction params.reverse generalizing machine with
  | nil => exact ⟨machine, rfl, .of_same rfl rfl⟩
  | cons param rest ih =>
    obtain ⟨passing, index⟩ := param
    cases passing with
    | reg type reg => exact ih machine
    | stack type offset =>
      let value := machine.load .i64 (machine.effective (argument index))
      obtain ⟨next, runs, lowers⟩ := ih (machine.push value)
      refine ⟨next, runs, ?_⟩
      rw [List.countP_cons_of_pos rfl, Nat.add_comm]
      exact (Processor.Lowers.push machine value).trans lowers

/-- Loading arguments leaves the stack. -/
theorem executes_loading {params : List (Passing × Nat)}
    (apart : ∀ type reg index, (.reg type reg, index) ∈ params → reg ≠ .rsp)
    (machine : Processor) :
    ∃ next, machine.executes (loading params) = some next ∧
      next.regs .rsp = machine.regs .rsp ∧ next.memory = machine.memory := by
  unfold loading
  induction params generalizing machine with
  | nil => exact ⟨machine, rfl, rfl, rfl⟩
  | cons param rest ih =>
    have others := fun type reg index member =>
      apart type reg index (List.mem_cons_of_mem _ member)
    obtain ⟨passing, index⟩ := param
    cases passing with
    | stack type offset => exact ih others machine
    | reg type reg =>
      let value := machine.load type (machine.effective (argument index))
      obtain ⟨next, runs, stack, memory⟩ := ih others (machine.setReg reg value)
      have different := apart type reg index List.mem_cons_self
      refine ⟨next, ?_, ?_, memory⟩
      · rw [List.flatMap_cons]
        dsimp only
        split
        · exact runs
        · exact runs
      · rw [stack, Processor.regs_setReg, if_neg (Ne.symm different)]

theorem executes_placing (type : FuncType) (machine : Processor) :
    ∃ next, machine.executes (placing (.ofType type)) = some next ∧
      machine.Lowers next (Signature.ofType type).words := by
  let params := (Signature.ofType type).params.zipIdx
  have count : params.countP (fun param => param.1.onStack) =
      (Signature.ofType type).stackParams := by
    have firsts : params.map Prod.fst = (Signature.ofType type).params :=
      List.zipIdx_map_fst 0 _
    rw [← Signature.ofType_count, ← firsts, List.countP_map]
    rfl
  have apart : ∀ type reg index, (Passing.reg type reg, index) ∈ params → reg ≠ .rsp := by
    rintro param reg index member rfl
    have suits := Compile.passing_suits type (List.fst_mem_of_mem_zipIdx member)
    exact absurd suits.1 (by decide)
  obtain ⟨padded, pads, deeper⟩ : ∃ next,
      machine.executes (if (Signature.ofType type).needsPadding then [.pushImm 0] else []) =
        some next ∧
      machine.Lowers next (if (Signature.ofType type).needsPadding then 1 else 0) := by
    split
    · exact ⟨_, rfl, Processor.Lowers.push machine _⟩
    · exact ⟨machine, rfl, .of_same rfl rfl⟩
  obtain ⟨pushed, pushes, lowers⟩ := executes_pushing params padded
  obtain ⟨next, loads, stack, memory⟩ := executes_loading apart pushed
  refine ⟨next, ?_, ?_⟩
  · rw [placing, Processor.executes_append, Processor.executes_append, pads, Option.bind_some,
      pushes, Option.bind_some, loads]
  · have whole := (deeper.trans lowers).trans (.of_same stack memory)
    rw [count] at whole
    rw [Signature.words, Nat.add_comm]
    exact whole

theorem Laid.travels_call {code front middle back : List UInt8}
    (laid : Laid signature target cell resume code front middle back) {kept placed : Processor}
    (saves : entry.executes (saving cell ++ marking resume) = some kept)
    (places : kept.executes (placing signature) = some placed) :
    Processor.Travels code 0 entry front.length (placed.setReg .rax target.toBitVec) := by
  have runs : entry.executes (saving cell ++ marking resume ++ placing signature ++
      [.movabs .rax target]) = some (placed.setReg .rax target.toBitVec) := by
    rw [Processor.executes_append, Processor.executes_append, saves, Option.bind_some, places]
    rfl
  have held : front <+: code.drop 0 := by
    rw [laid.whole, List.drop_zero]
    simp only [List.append_assoc]
    exact List.prefix_append _ _
  have reached := Processor.Travels.of_executes laid.opens held runs
  rwa [Nat.zero_add] at reached

theorem Laid.reaches_call {type : FuncType} {code front middle back : List UInt8}
    (laid : Laid (.ofType type) target cell resume code front middle back)
    (apart : Apart (.ofType type) cell entry) :
    ∃ called, Processor.Travels code 0 entry front.length called ∧
      called.regs .rax = target.toBitVec ∧
      called.regs .rsp =
        entry.regs .rsp - BitVec.ofNat 64 (8 * (7 + (Signature.ofType type).words)) ∧
      Awaits entry cell resume called.memory := by
  obtain ⟨kept, saves, stack, awaits, _, _⟩ := executes_saving apart resume
  obtain ⟨placed, places, lowers⟩ := executes_placing type kept
  refine ⟨_, laid.travels_call saves places, rfl, ?_, ?_⟩
  · have lowered : placed.regs .rsp =
        entry.regs .rsp - BitVec.ofNat 64 (8 * (7 + (Signature.ofType type).words)) := by
      rw [lowers.stack, stack, Nat.mul_add, BitVec.ofNat_add]
      bv_omega
    exact lowered
  · have length : saved.length = 6 := rfl
    have room : 8 * (7 + (Signature.ofType type).words) < 2 ^ 64 :=
      Nat.lt_of_le_of_lt (apart 0 (by decide)) (BitVec.isLt _)
    have lowered : kept.regs .rsp = entry.regs .rsp - BitVec.ofNat 64 56 := stack
    refine awaits.spared ⟨fun place shallow => lowers.memory place ?_, ?_⟩
    · rw [Processor.depth_above lowered (by decide) (by omega)]
      omega
    · intro offset low high
      have deep := apart offset (by unfold trapCellSize; omega)
      apply lowers.memory
      rw [Processor.depth_below lowered (by omega)]
      omega

theorem row_held {code front row rest : List UInt8} {offset : Nat}
    (whole : code = front ++ row ++ rest) (length : offset = front.length) :
    row <+: code.drop offset := by
  rw [whole, length, List.append_assoc, List.drop_left]
  exact List.prefix_append _ _

theorem Laid.restores_host {code front middle back : List UInt8}
    (laid : Laid signature target cell resume code front middle back) {machine : Processor}
    (stack : machine.regs .rsp = entry.regs .rsp - 56)
    (awaits : Awaits entry cell resume machine.memory) :
    ∃ final, Processor.Travels code (front.length + 2 + middle.length) machine (code.length - 1)
        final ∧
      entry.Restored final ∧ final.memory = machine.memory ∧
      final.regs .rax = machine.regs .rax := by
  obtain ⟨lifted, lifts, sum, others, same⟩ := machine.executes_addImm .rsp 8
  have lower : lifted.regs .rsp = entry.regs .rsp - BitVec.ofNat 64 (8 * saved.length) := by
    rw [sum, stack]
    change entry.regs .rsp - 56 + 8 = entry.regs .rsp - 48
    bv_omega
  obtain ⟨final, pops, top, memory, restored, kept⟩ :=
    Processor.executes_pops (by decide) lower (same ▸ awaits.stack)
  have runs : machine.executes restoring = some final := by
    rw [restoring, ← List.singleton_append, Processor.executes_append, lifts, Option.bind_some,
      pops]
  have held : back <+: code.drop (front.length + 2 + middle.length) := by
    refine row_held laid.whole ?_
    simp only [List.length_append, List.length_cons, List.length_nil]
  have reached := Processor.Travels.of_executes laid.restores held runs
  have last : front.length + 2 + middle.length + back.length = code.length - 1 := by
    rw [laid.whole]
    simp only [List.length_append, List.length_cons, List.length_nil]
    omega
  refine ⟨final, last ▸ reached, ⟨top, restored⟩, memory.trans same, ?_⟩
  rw [kept .rax (by decide) (by decide), others .rax (by decide)]

theorem runs_returning {type : FuncType} {code row : List UInt8} {offset : Nat}
    (encodes : Instruction.encodeAll (returning (.ofType type)) = .ok row)
    (held : row <+: code.drop offset) (machine : Processor) :
    ∃ final, Processor.Travels code offset machine (offset + row.length) final ∧
      final.regs .rsp = machine.regs .rsp ∧ final.memory = machine.memory ∧
      final.regs .rax = (Signature.ofType type).resultBits machine := by
  have moves : ∀ word : ValueType, Instruction.encodeAll [.movFromFp word .rax (.xmm 0)] = .ok row →
      Processor.Travels code offset machine (offset + row.length)
        (machine.setReg .rax (word.clip (machine.regs (.xmm 0)))) := by
    intro word encodes
    obtain ⟨bytes, rest, encoded, none, rfl⟩ := Instruction.encodeAll_cons_ok encodes
    cases none
    rw [List.append_nil] at held ⊢
    exact .single encoded held rfl
  unfold returning Signature.ofType at encodes
  unfold Signature.resultBits Signature.ofType
  cases first : type.results.head? with
  | none =>
    rw [first] at encodes
    cases encodes
    exact ⟨machine, .done _ _, rfl, rfl, rfl⟩
  | some result =>
    rw [first] at encodes
    cases result with
    | f32 => exact ⟨_, moves .i32 encodes, rfl, rfl, rfl⟩
    | f64 =>
      refine ⟨_, moves .i64 encodes, rfl, rfl, ?_⟩
      exact ValueType.clip_i64 _
    | i32 =>
      cases encodes
      exact ⟨machine, .done _ _, rfl, rfl, rfl⟩
    | i64 =>
      cases encodes
      exact ⟨machine, .done _ _, rfl, rfl, rfl⟩
    | unknown code =>
      cases encodes
      exact ⟨machine, .done _ _, rfl, rfl, rfl⟩

/-- Only the register of the result counts. -/
theorem resultBits_congr (type : FuncType) {machine other : Processor}
    (same : ∀ reg, reg ≠ .rsp → other.regs reg = machine.regs reg) :
    (Signature.ofType type).resultBits other = (Signature.ofType type).resultBits machine := by
  have returned : ∀ result, Register.returned result ≠ .rsp := by
    intro result
    unfold Register.returned
    split <;> decide
  unfold Signature.resultBits Signature.ofType
  cases type.results.head? with
  | none => exact same .rax (by decide)
  | some result => cases result <;> simp [same _ (returned _)]

theorem Laid.collects_result {type : FuncType} {code front middle back : List UInt8}
    (laid : Laid (.ofType type) target cell resume code front middle back) {machine : Processor}
    (few : 8 * (Signature.ofType type).words < 2147483648)
    (stack : machine.regs .rsp =
      entry.regs .rsp - BitVec.ofNat 64 (8 * (7 + (Signature.ofType type).words))) :
    ∃ final, Processor.Travels code (front.length + 2) machine (front.length + 2 + middle.length)
        final ∧
      final.regs .rsp = entry.regs .rsp - 56 ∧ final.memory = machine.memory ∧
      final.regs .rax = (Signature.ofType type).resultBits machine := by
  obtain ⟨dropped, returned, drops, returns, rfl⟩ := Instruction.encodeAll_append_ok laid.collects
  have heldFirst : dropped <+: code.drop (front.length + 2) := by
    refine @row_held _ (front ++ [0xff, 0xd0]) _ (returned ++ back ++ [0xc3]) _ ?_ ?_
    · simp only [laid.whole, List.append_assoc]
    · simp only [List.length_append, List.length_cons, List.length_nil]
  have heldSecond : returned <+: code.drop (front.length + 2 + dropped.length) := by
    refine @row_held _ (front ++ [0xff, 0xd0] ++ dropped) _ (back ++ [0xc3]) _ ?_ ?_
    · simp only [laid.whole, List.append_assoc]
    · simp only [List.length_append, List.length_cons, List.length_nil]
  obtain ⟨lifted, lifts, top, others, same⟩ : ∃ lifted,
      machine.executes (dropping (.ofType type)) = some lifted ∧
      lifted.regs .rsp = entry.regs .rsp - 56 ∧
      (∀ other, other ≠ .rsp → lifted.regs other = machine.regs other) ∧
      lifted.memory = machine.memory := by
    unfold dropping
    generalize (Signature.ofType type).words = words at few stack
    split
    case isTrue none =>
      refine ⟨machine, rfl, ?_, fun _ _ => rfl, rfl⟩
      rw [stack, none]
      rfl
    case isFalse some =>
      obtain ⟨lifted, lifts, sum, others, same⟩ :=
        machine.executes_addImm .rsp (Int32.ofNat (8 * words))
      refine ⟨lifted, lifts, ?_, others, same⟩
      have fits : (Int32.ofNat (8 * words)).toInt = (8 * words : Nat) :=
        Int32.toInt_ofNat_of_lt few
      rw [sum, stack, fits, BitVec.ofInt_natCast, Nat.mul_add, BitVec.ofNat_add]
      bv_omega
  have first := Processor.Travels.of_executes drops heldFirst lifts
  rw [List.length_append, ← Nat.add_assoc]
  obtain ⟨final, second, stack, memory, result⟩ := runs_returning returns heldSecond lifted
  exact ⟨final, first.trans second, stack.trans top, memory.trans same,
    result.trans (resultBits_congr type others)⟩

/-- A stub writes to none of the words that bring back the host. -/
theorem Apart.reports (apart : Apart signature cell entry) {deep reported : Processor}
    {kind : TrapKind} {instr : Int} {func : UInt32}
    (reports : deep.Reports reported cell.toBitVec kind instr func) :
    Spares entry cell deep.memory reported.memory := by
  constructor
  · intro place shallow
    apply reports.memory
    intro field among
    have bounds : ∃ start : Nat, start + 4 ≤ 32 ∧
        BitVec.ofInt 64 field.toInt = BitVec.ofNat 64 start := by
      simp only [List.mem_cons, List.not_mem_nil, or_false] at among
      rcases among with rfl | rfl | rfl
      · exact ⟨0, by decide, by decide⟩
      · exact ⟨4, by decide, by decide⟩
      · exact ⟨24, by decide, by decide⟩
    obtain ⟨start, inside, same⟩ := bounds
    rw [same]
    by_contra hit
    generalize found : (place - (cell.toBitVec + BitVec.ofNat 64 start)).toNat = offset at hit
    have located : place = cell.toBitVec + BitVec.ofNat 64 (start + offset) := by bv_omega
    have deep := apart (start + offset) (by unfold trapCellSize; omega)
    have length : saved.length = 6 := rfl
    rw [← located] at deep
    omega
  · intro offset low high
    apply reports.memory
    intro field among
    simp only [List.mem_cons, List.not_mem_nil, or_false] at among
    rcases among with rfl | rfl | rfl
    · change 4 ≤ (cell.toBitVec + BitVec.ofNat 64 offset - (cell.toBitVec + 0)).toNat
      bv_omega
    · change 4 ≤ (cell.toBitVec + BitVec.ofNat 64 offset - (cell.toBitVec + 4)).toNat
      bv_omega
    · change 4 ≤ (cell.toBitVec + BitVec.ofNat 64 offset - (cell.toBitVec + 24)).toNat
      bv_omega

theorem Laid.returns {type : FuncType} {code front middle back : List UInt8}
    (laid : Laid (.ofType type) target cell resume code front middle back) {machine : Processor}
    (few : 8 * (Signature.ofType type).words < 2147483648)
    (stack : machine.regs .rsp =
      entry.regs .rsp - BitVec.ofNat 64 (8 * (7 + (Signature.ofType type).words)))
    (awaits : Awaits entry cell resume machine.memory) :
    ∃ final, Processor.Travels code (front.length + 2) machine (code.length - 1) final ∧
      entry.Restored final ∧ final.regs .rax = (Signature.ofType type).resultBits machine := by
  obtain ⟨collected, first, top, memory, result⟩ := laid.collects_result few stack
  obtain ⟨final, second, restored, _, same⟩ := laid.restores_host top (memory ▸ awaits)
  exact ⟨final, first.trans second, restored, same.trans result⟩

/-- A stub that is reached in whatever state brings control to the final return. -/
theorem Laid.unwinds {code front middle back : List UInt8}
    (laid : Laid signature target cell resume code front middle back)
    (apart : Apart signature cell entry) {deep : Processor}
    (awaits : Awaits entry cell resume deep.memory) (kind : TrapKind) (instr : Int)
    (func : UInt32) :
    ∃ reported final, deep.executes (trapReport cell kind instr func).dropLast = some reported ∧
      reported.load .i64 (reported.effective (.based .r10 trapCell.resume)) = resume.toBitVec ∧
      Processor.Travels code (front.length + 2 + middle.length) reported (code.length - 1) final ∧
      entry.Restored final ∧ final.Reported cell kind instr func := by
  obtain ⟨reported, runs, reports⟩ := executes_trapReport deep cell kind instr func
  have kept := awaits.spared (apart.reports reports)
  obtain ⟨final, restores, restored, memory, _⟩ :=
    laid.restores_host (reports.stack.trans awaits.pointer) kept
  refine ⟨reported, final, runs, ?_, restores, restored, ?_⟩
  · rw [reported.effective_based _ (by decide), reports.cell]
    exact kept.resume
  · constructor
    · rw [memory]
      exact reports.kind
    · rw [memory]
      exact reports.instr
    · rw [memory]
      exact reports.func

end Thunk

/-- A thunk brings control back to the host with the registers that the host expects, whether the
callee returns or traps.  `call` is where the thunk calls the function; the callee may do
anything but write to the words that the thunk keeps for the host.  A trap is reported in the trap
cell, and the stub of the trap jumps to where the thunk resumes. -/
theorem thunk_unwinds (type : FuncType) (target cell : UInt64) :
    ((∀ param ∈ type.params, param.isValid = true) →
      ∃ thunk, Thunk.build (.ofType type) target cell = .ok thunk) ∧
    ∀ thunk, Thunk.build (.ofType type) target cell = .ok thunk →
      ∀ (address : UInt64) (entry : Processor), Thunk.Apart (.ofType type) cell entry →
      ∃ (call : Nat) (called : Processor),
        Processor.Travels (thunk.link address) 0 entry call called ∧
        [0xff, 0xd0] <+: (thunk.link address).drop call ∧
        called.regs .rax = target.toBitVec ∧
        (thunk.link address).getLast? = some 0xc3 ∧
        (∀ back : Processor, 8 * (Signature.ofType type).words < 2147483648 →
          back.regs .rsp = called.regs .rsp →
          Thunk.Spares entry cell called.memory back.memory →
          ∃ final,
            Processor.Travels (thunk.link address) (call + 2) back ((thunk.link address).length - 1)
              final ∧
            entry.Restored final ∧
            final.regs .rax = (Signature.ofType type).resultBits back) ∧
        ∀ (deep : Processor) (kind : TrapKind) (instr : Int) (func : UInt32),
          Thunk.Spares entry cell called.memory deep.memory →
          ∃ reported final,
            deep.executes (trapReport cell kind instr func).dropLast = some reported ∧
            reported.load .i64 (reported.effective (.based .r10 trapCell.resume)) =
              (address + UInt64.ofNat thunk.resumeAt).toBitVec ∧
            Processor.Travels (thunk.link address) thunk.resumeAt reported
              ((thunk.link address).length - 1) final ∧
            entry.Restored final ∧ final.Reported cell kind instr func := by
  refine ⟨fun valid => Thunk.build_succeeds valid target cell, ?_⟩
  intro thunk built address entry apart
  obtain ⟨front, middle, back, laid, resumeAt⟩ := Thunk.build_laid built address
  obtain ⟨called, runs, aimed, stack, awaits⟩ := laid.reaches_call apart
  refine ⟨front.length, called, runs, ?_, aimed, ?_, ?_, ?_⟩
  · refine @Thunk.row_held _ front _ (middle ++ back ++ [0xc3]) _ ?_ rfl
    simp only [laid.whole, List.append_assoc]
  · rw [laid.whole, List.getLast?_append]
    rfl
  · intro returned few balanced spares
    exact laid.returns few (balanced.trans stack) (awaits.spared spares)
  · intro deep kind instr func spares
    have unwound := laid.unwinds apart (awaits.spared spares) kind instr func
    rw [← resumeAt] at unwound
    exact unwound

/-- A host with its stack far above the trap cell. -/
def hosting : Processor := { regs := fun _ => 0x10000, memory := fun _ => 0 }

/-- A function with two arguments on the stack and a float result, whose thunk runs for
`hosting`; the callee returns or traps at once. -/
theorem thunk_unwinds_stackArguments :
    let type : FuncType := ⟨List.replicate 8 .i64, [.f64]⟩
    ∃ thunk, Thunk.build (.ofType type) 0x1000 0x2000 = .ok thunk ∧
      ∃ call called final reported unwound,
        Processor.Travels (thunk.link 0x3000) 0 hosting call called ∧
        Processor.Travels (thunk.link 0x3000) (call + 2) called ((thunk.link 0x3000).length - 1)
          final ∧
        hosting.Restored final ∧ final.regs .rax = called.regs (.xmm 0) ∧
        Processor.Travels (thunk.link 0x3000) thunk.resumeAt reported
          ((thunk.link 0x3000).length - 1) unwound ∧
        hosting.Restored unwound ∧ unwound.Reported 0x2000 .divideByZero 3 7 := by
  intro type
  obtain ⟨builds, runs⟩ := thunk_unwinds type 0x1000 0x2000
  obtain ⟨thunk, built⟩ := builds (by decide)
  have apart : Thunk.Apart (.ofType type) 0x2000 hosting := by
    intro offset inside
    have words : (Signature.ofType type).words = 2 := by decide
    unfold trapCellSize at inside
    rw [words]
    change 72 ≤ ((0x10000 : BitVec 64) - 1 - (0x2000 + BitVec.ofNat 64 offset)).toNat
    bv_omega
  obtain ⟨call, called, reached, _, _, _, returns, traps⟩ := runs thunk built 0x3000 hosting apart
  have spares : Thunk.Spares hosting 0x2000 called.memory called.memory :=
    ⟨fun _ _ => rfl, fun _ _ _ => rfl⟩
  obtain ⟨final, ran, restored, result⟩ := returns called (by decide) rfl spares
  obtain ⟨reported, unwound, _, _, resumed, host, told⟩ := traps called .divideByZero 3 7 spares
  exact ⟨thunk, built, call, called, final, reported, unwound, reached, ran, restored, result,
    resumed, host, told⟩

end WasmX64
