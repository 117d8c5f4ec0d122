import WasmX64.Proofs.Processor.Execute
import WasmX64.Proofs.Wires.Stubs

/-!
# What a stub reports

The code of a stub writes three words into the trap cell and takes back the stack pointer that
the host has left there; nothing else changes.
-/

namespace WasmX64

/-- Where a stub leaves the processor: its report is in the trap cell, the stack is that of the
host, and the rest is as it was. -/
structure Processor.Reports (before after : Processor) (cell : BitVec 64) (kind : TrapKind)
    (instr : Int) (func : UInt32) : Prop where
  kind : after.memory.read (cell + BitVec.ofInt 64 trapCell.kind.toInt) 4 =
    kind.code.toBitVec.setWidth 64
  instr : after.memory.read (cell + BitVec.ofInt 64 trapCell.instr.toInt) 4 =
    (BitVec.ofInt 32 instr).setWidth 64
  func : after.memory.read (cell + BitVec.ofInt 64 trapCell.func.toInt) 4 =
    func.toBitVec.setWidth 64
  memory : ∀ place,
    (∀ field ∈ [trapCell.kind, trapCell.instr, trapCell.func],
      4 ≤ (place - (cell + BitVec.ofInt 64 field.toInt)).toNat) →
    after.memory place = before.memory place
  stack : after.regs .rsp =
    before.memory.read (cell + BitVec.ofInt 64 trapCell.stackPointer.toInt) 8
  cell : after.regs .r10 = cell
  regs : ∀ reg, reg ≠ .rsp → reg ≠ .r10 → after.regs reg = before.regs reg

/-- Only the address of the trap cell differs between the codes of a stub. -/
theorem trapReport_bytes (kind : TrapKind) (instr : Int) (func : UInt32) :
    ∃ rest, ∀ cell, Instruction.encodeAll (trapReport cell kind instr func) =
      .ok ([0x49, 0xba] ++ bytes64 cell ++ rest) :=
  ⟨_, fun _ => rfl⟩

/-- Bytes inside a row are overwritten and the others of the row stay. -/
theorem Code.Holds.overwrite {code : Code} {offset : Nat} {front old new back : List UInt8}
    (holds : code.Holds offset (front ++ old ++ back)) (length : new.length = old.length) :
    Code.Holds { bytes := Code.overwrite code.bytes (offset + front.length) new } offset
      (front ++ new ++ back) := by
  rw [List.append_assoc, holds_append_iff, holds_append_iff] at holds ⊢
  obtain ⟨before, within, behind⟩ := holds
  have stays : ∀ start row, code.Holds start row →
      start + row.length ≤ offset + front.length ∨ offset + front.length + new.length ≤ start →
      Code.Holds { bytes := Code.overwrite code.bytes (offset + front.length) new } start row := by
    intro start row held apart index byte found
    have below := (List.getElem?_eq_some_iff.mp found).1
    have outside : ¬ (offset + front.length ≤ start + index ∧
        start + index < offset + front.length + new.length) := by omega
    exact (getElem?_overwrite _ _ _ outside).trans (held index byte found)
  refine ⟨stays _ _ before (by omega), ?_, ?_⟩
  · intro index byte found
    have below := (List.getElem?_eq_some_iff.mp found).1
    have last : old[old.length - 1]? = some (old.get ⟨old.length - 1, by omega⟩) :=
      List.getElem?_eq_getElem (by omega)
    have room := (Array.getElem?_eq_some_iff.mp (within _ _ last)).1
    exact getElem?_overwrite_inside _ _ _ (by omega) found
  · rw [length]
    exact stays _ _ behind (by omega)

/-- A word written into the trap cell leaves the words at other places. -/
theorem read_cell_of_apart (memory : ByteMemory) (cell value : BitVec 64)
    {first second count : Nat} (apart : second + 4 ≤ first ∨ first + count ≤ second)
    (low : first ≤ 24 ∧ second ≤ 24) (few : count ≤ 8) :
    (memory.write (cell + BitVec.ofNat 64 second) 4 value).read (cell + BitVec.ofNat 64 first)
        count =
      memory.read (cell + BitVec.ofNat 64 first) count := by
  apply ByteMemory.read_write_of_apart
  intro offset inside
  bv_omega

theorem narrow_ofInt (number : Int32) :
    narrow 4 (BitVec.ofInt 64 number.toInt) = number.toBitVec.setWidth 64 := by
  have low : (number.toBitVec.signExtend 64).setWidth 32 = number.toBitVec := by
    apply BitVec.eq_of_getLsbD_eq
    intro index small
    rw [BitVec.getLsbD_setWidth, BitVec.getLsbD_signExtend]
    simp [small]
    omega
  exact congrArg (BitVec.setWidth 64) low

/-- The code of a stub, up to the jump that leaves it, makes its report. -/
theorem executes_trapReport (machine : Processor) (cell : UInt64) (kind : TrapKind) (instr : Int)
    (func : UInt32) :
    ∃ after, machine.executes (trapReport cell kind instr func).dropLast = some after ∧
      machine.Reports after cell.toBitVec kind instr func := by
  let place (field : Int32) := cell.toBitVec + BitVec.ofInt 64 field.toInt
  let first := machine.memory.write (place trapCell.kind) 4
    (BitVec.ofInt 64 kind.code.toInt32.toInt)
  let second := first.write (place trapCell.instr) 4 (BitVec.ofInt 64 (Int32.ofInt instr).toInt)
  let third := second.write (place trapCell.func) 4 (BitVec.ofInt 64 func.toInt32.toInt)
  let entered := machine.setReg .r10 cell.toBitVec
  refine ⟨{ entered with memory := third }.setReg .rsp (third.read (place trapCell.stackPointer) 8),
    ?_, ?_⟩
  · have located : ∀ (machine : Processor) (field : Int32),
        machine.effective (.based .r10 field) = machine.regs .r10 + BitVec.ofInt 64 field.toInt :=
      fun machine field => machine.effective_based field (by decide)
    simp only [trapReport, List.dropLast, Processor.executes, Processor.execute, Processor.step,
      located, Processor.store, Processor.load, Option.bind_some, Processor.regs_setReg, if_true,
      Processor.memory_setReg]
    rfl
  · have written : ∀ (memory : ByteMemory) (here : BitVec 64) (number : Int32),
        (memory.write here 4 (BitVec.ofInt 64 number.toInt)).read here 4 =
          number.toBitVec.setWidth 64 := by
      intro memory here number
      rw [ByteMemory.read_write _ _ _ (by omega), narrow_ofInt]
    constructor
    · have later := @read_cell_of_apart second cell.toBitVec
        (BitVec.ofInt 64 func.toInt32.toInt) 0 24 4 (by omega) (by omega) (by omega)
      have next := @read_cell_of_apart first cell.toBitVec
        (BitVec.ofInt 64 (Int32.ofInt instr).toInt) 0 4 4 (by omega) (by omega) (by omega)
      exact later.trans (next.trans (written _ _ _))
    · have later := @read_cell_of_apart second cell.toBitVec
        (BitVec.ofInt 64 func.toInt32.toInt) 4 24 4 (by omega) (by omega) (by omega)
      exact later.trans (written _ _ _)
    · exact written _ _ _
    · intro address outside
      have notKind := outside trapCell.kind (by simp)
      have notInstr := outside trapCell.instr (by simp)
      have notFunc := outside trapCell.func (by simp)
      change third address = _
      simp only [third, second, first, ByteMemory.write]
      rw [if_neg (Nat.not_lt.mpr notFunc), if_neg (Nat.not_lt.mpr notInstr),
        if_neg (Nat.not_lt.mpr notKind)]
    · have last := @read_cell_of_apart second cell.toBitVec
        (BitVec.ofInt 64 func.toInt32.toInt) 8 24 8 (by omega) (by omega) (by omega)
      have next := @read_cell_of_apart first cell.toBitVec
        (BitVec.ofInt 64 (Int32.ofInt instr).toInt) 8 4 8 (by omega) (by omega) (by omega)
      have early := @read_cell_of_apart machine.memory cell.toBitVec
        (BitVec.ofInt 64 kind.code.toInt32.toInt) 8 0 8 (by omega) (by omega) (by omega)
      exact last.trans (next.trans early)
    · rfl
    · intro reg notStack notCell
      simp [entered, notStack, notCell]

end WasmX64
