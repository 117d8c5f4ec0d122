import WasmX64.Proofs.Code.Listing
import WasmX64.Proofs.Processor.Follow

/-!
# The stack and loaded code

What a processor does while it runs bytes from an offset on, and what pushing and popping do to
the words above and below the stack pointer.  Addresses wrap around, so that the place of a byte
below the stack pointer is its distance from it.
-/

namespace WasmX64

namespace Processor

/-- Travels one instruction; the bits of a value may also move from one bank to the other. -/
def act (machine : Processor) : Instruction → Option Processor
  | .movToFp type dst src => some (machine.setReg dst (type.clip (machine.regs src)))
  | .movFromFp type dst src => some (machine.setReg dst (type.clip (machine.regs src)))
  | instruction => machine.perform instruction

theorem act_of_execute {machine next : Processor} {instruction : Instruction}
    (runs : machine.execute instruction = some next) : machine.act instruction = some next := by
  cases instruction
  case movToFp => cases runs
  case movFromFp => cases runs
  all_goals exact perform_of_execute runs

/-- Bytes are run from an offset to another one, one instruction after the other. -/
inductive Travels (code : List UInt8) : Nat → Processor → Nat → Processor → Prop
  | done (offset : Nat) (machine : Processor) : Travels code offset machine offset machine
  | next {offset last : Nat} {machine middle final : Processor} {instruction : Instruction}
      {row : List UInt8} (encodes : instruction.encode = .ok row)
      (held : row <+: code.drop offset) (acts : machine.act instruction = some middle)
      (rest : Travels code (offset + row.length) middle last final) :
      Travels code offset machine last final

namespace Travels

variable {code row : List UInt8} {first second third : Nat} {start middle final : Processor}

theorem trans (front : Travels code first start second middle)
    (back : Travels code second middle third final) : Travels code first start third final := by
  induction front with
  | done => exact back
  | next encodes held acts _ ih => exact .next encodes held acts (ih back)

theorem single {instruction : Instruction} (encodes : instruction.encode = .ok row)
    (held : row <+: code.drop first) (acts : start.act instruction = some final) :
    Travels code first start (first + row.length) final :=
  .next encodes held acts (.done _ _)

theorem of_executes {instructions : List Instruction}
    (encodes : Instruction.encodeAll instructions = .ok row) (held : row <+: code.drop first)
    (runs : start.executes instructions = some final) :
    Travels code first start (first + row.length) final := by
  induction instructions generalizing first start row with
  | nil =>
    cases encodes
    cases runs
    exact .done _ _
  | cons instruction rest ih =>
    obtain ⟨bytes, more, front, back, rfl⟩ := Instruction.encodeAll_cons_ok encodes
    rw [executes] at runs
    obtain ⟨next, executed, others⟩ := Option.bind_eq_some_iff.mp runs
    obtain ⟨behind, whole⟩ := held
    have here : bytes <+: code.drop first :=
      ⟨more ++ behind, by rw [← whole, List.append_assoc]⟩
    have there : more <+: code.drop (first + bytes.length) := by
      refine ⟨behind, ?_⟩
      rw [← List.drop_drop, ← whole, List.append_assoc, List.drop_left]
    have further := ih back there others
    rw [Nat.add_assoc, ← List.length_append] at further
    exact .next front here (act_of_execute executed) further

end Travels

/-- How far a place lies below the byte under the stack pointer. -/
def depth (machine : Processor) (place : BitVec 64) : Nat :=
  (machine.regs .rsp - 1 - place).toNat

section depth

variable {upper lower : Processor} {count : Nat} {place : BitVec 64}
  (stack : lower.regs .rsp = upper.regs .rsp - BitVec.ofNat 64 count)
include stack

theorem depth_below (deep : count ≤ upper.depth place) :
    lower.depth place = upper.depth place - count := by
  have bound := (upper.regs .rsp - 1 - place).isLt
  unfold depth at deep ⊢
  rw [stack]
  bv_omega

/-- What the stack has grown over lies at the far end of the addresses. -/
theorem depth_above (few : count < 2 ^ 64) (shallow : upper.depth place < count) :
    lower.depth place = upper.depth place + 2 ^ 64 - count := by
  unfold depth at shallow ⊢
  rw [stack]
  bv_omega

end depth

/-- The stack has grown by a number of words; what lies deeper or above is as it was. -/
structure Lowers (before after : Processor) (words : Nat) : Prop where
  stack : after.regs .rsp = before.regs .rsp - BitVec.ofNat 64 (8 * words)
  memory : ∀ place, 8 * words ≤ before.depth place → after.memory place = before.memory place

namespace Lowers

variable {first second third : Processor} {few more : Nat}

theorem of_same (stack : second.regs .rsp = first.regs .rsp)
    (memory : second.memory = first.memory) : Lowers first second 0 := by
  constructor
  · simp [stack]
  · intro place _
    rw [memory]

theorem trans (front : Lowers first second few) (back : Lowers second third more) :
    Lowers first third (few + more) := by
  constructor
  · rw [back.stack, front.stack, Nat.mul_add, BitVec.ofNat_add]
    bv_omega
  · intro place deep
    have moved : second.depth place = first.depth place - 8 * few :=
      depth_below front.stack (by omega)
    rw [back.memory place (by omega), front.memory place (by omega)]

theorem push (machine : Processor) (value : BitVec 64) :
    Lowers machine (machine.push value) 1 := by
  constructor
  · rfl
  · intro place deep
    have outside : ¬ (place - (machine.regs .rsp - 8)).toNat < 8 := by
      unfold depth at deep
      bv_omega
    exact if_neg outside

end Lowers

/-- The words below an address hold the values of registers, the first one on top. -/
def Stacked (memory : ByteMemory) (values : Register → BitVec 64) :
    BitVec 64 → List Register → Prop
  | _, [] => True
  | top, reg :: rest =>
    memory.read (top - 8) 8 = values reg ∧ Stacked memory values (top - 8) rest

/-- Only the words themselves count. -/
theorem Stacked.congr {before after : ByteMemory} {values : Register → BitVec 64}
    {top : BitVec 64} {regs : List Register} (stacked : Stacked before values top regs)
    (few : 8 * regs.length < 2 ^ 64)
    (same : ∀ place, (top - 1 - place).toNat < 8 * regs.length → after place = before place) :
    Stacked after values top regs := by
  induction regs generalizing top with
  | nil => trivial
  | cons reg rest ih =>
    rw [List.length_cons] at few same
    refine ⟨?_, ih stacked.2 (by omega) fun place inside => same place (by bv_omega)⟩
    rw [← stacked.1]
    apply ByteMemory.read_congr
    intro offset small
    exact same _ (by bv_omega)

theorem Stacked.values {memory : ByteMemory} {before after : Register → BitVec 64}
    {top : BitVec 64} {regs : List Register} (stacked : Stacked memory before top regs)
    (same : ∀ reg ∈ regs, before reg = after reg) : Stacked memory after top regs := by
  induction regs generalizing top with
  | nil => trivial
  | cons reg rest ih =>
    refine ⟨stacked.1.trans (same reg List.mem_cons_self), ih stacked.2 ?_⟩
    exact fun other listed => same other (List.mem_cons_of_mem _ listed)

theorem executes_pushes {regs : List Register} (few : 8 * regs.length < 2 ^ 64)
    (apart : Register.rsp ∉ regs) (machine : Processor) :
    ∃ next, machine.executes (regs.map .push) = some next ∧ machine.Lowers next regs.length ∧
      Stacked next.memory machine.regs (machine.regs .rsp) regs ∧
      ∀ reg, reg ≠ .rsp → next.regs reg = machine.regs reg := by
  induction regs generalizing machine with
  | nil => exact ⟨machine, rfl, .of_same rfl rfl, trivial, fun _ _ => rfl⟩
  | cons reg rest ih =>
    rw [List.length_cons] at few
    rw [List.mem_cons, not_or] at apart
    let middle := machine.push (machine.regs reg)
    obtain ⟨next, runs, lowers, stacked, regs⟩ := ih (by omega) apart.2 middle
    have others : ∀ other, other ≠ .rsp → middle.regs other = machine.regs other :=
      fun other different => if_neg different
    refine ⟨next, runs, ?_, ⟨?_, ?_⟩, ?_⟩
    · rw [List.length_cons, Nat.add_comm]
      exact (Lowers.push machine _).trans lowers
    · have written : middle.memory.read (machine.regs .rsp - 8) 8 = machine.regs reg :=
        (ByteMemory.read_write _ _ _ (Nat.le_refl 8)).trans (narrow_eq_self _)
      rw [← written]
      apply ByteMemory.read_congr
      intro offset small
      apply lowers.memory
      have top : middle.regs .rsp = machine.regs .rsp - 8 := rfl
      unfold depth
      rw [top]
      bv_omega
    · exact stacked.values fun other listed => others other fun same => apart.2 (same ▸ listed)
    · intro other different
      rw [regs other different, others other different]

theorem executes_pops {regs : List Register} (apart : Register.rsp ∉ regs) {machine : Processor}
    {values : Register → BitVec 64} {top : BitVec 64}
    (stack : machine.regs .rsp = top - BitVec.ofNat 64 (8 * regs.length))
    (stacked : Stacked machine.memory values top regs) :
    ∃ next, machine.executes (regs.reverse.map .pop) = some next ∧ next.regs .rsp = top ∧
      next.memory = machine.memory ∧ (∀ reg ∈ regs, next.regs reg = values reg) ∧
      ∀ reg, reg ≠ .rsp → reg ∉ regs → next.regs reg = machine.regs reg := by
  induction regs generalizing top with
  | nil => exact ⟨machine, rfl, by simpa using stack, rfl, by simp, fun _ _ _ => rfl⟩
  | cons reg rest ih =>
    rw [List.mem_cons, not_or] at apart
    have below : machine.regs .rsp = top - 8 - BitVec.ofNat 64 (8 * rest.length) := by
      rw [stack, List.length_cons, Nat.mul_add, BitVec.ofNat_add]
      bv_omega
    obtain ⟨middle, runs, reached, memory, restored, others⟩ := ih apart.2 below stacked.2
    refine ⟨middle.pop.2.setReg reg middle.pop.1, ?_, ?_, memory, ?_, ?_⟩
    · rw [List.reverse_cons, List.map_append, executes_append, runs]
      rfl
    · simp only [pop, regs_setReg, if_neg apart.1, if_true, reached]
      bv_omega
    · intro other member
      by_cases same : other = reg
      · simp only [pop, regs_setReg, if_pos same, memory, reached]
        rw [same]
        exact stacked.1
      · have listed : other ∈ rest := (List.mem_cons.mp member).resolve_left same
        have inner : other ≠ .rsp := fun equality => apart.2 (equality ▸ listed)
        simp only [pop, regs_setReg, if_neg same, if_neg inner]
        exact restored other listed
    · intro other different absent
      rw [List.mem_cons, not_or] at absent
      simp only [pop, regs_setReg, if_neg absent.1, if_neg different]
      exact others other different absent.2

end Processor

end WasmX64
