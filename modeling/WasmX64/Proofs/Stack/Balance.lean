import WasmX64.Proofs.Instance.Unwind
import WasmX64.Proofs.Stack.Frame

/-!
# The stack is balanced

At every stage the stack pointer lies a known number of bytes below where it was at the entry, and
the words that a function returns with are in place.  So the stack is aligned at calls, what is
pushed for a call is taken off again, and a function returns with the pointers of its caller.
-/

/-!
## Runs of a function

A run goes through the instructions of a listing from its start on.  Of an instruction that leaves
stack and frame pointer alone only the registers that it writes and the bytes of its operand may
change; one that does not is run as the processor runs it.  A callee comes back with both pointers
and with the words that the caller returns with, which accesses outside the frame spare as well.
Every position that a run comes to is at one stage of the stack.
-/

namespace WasmX64

namespace Processor

/-- An instruction changes no more than the registers that it writes and the bytes of its
operand. -/
structure Touches (instruction : Instruction) (before after : Processor) : Prop where
  regs : ∀ reg, reg ∉ instruction.written → after.regs reg = before.regs reg
  memory : ∀ place, (∀ address, instruction.operand? = some address →
    8 ≤ (place - before.effective address).toNat) → after.memory place = before.memory place

/-- What an instruction may do: one that moves the stack or frame pointer does what the processor
does, any other one stays within what it touches. -/
def Takes (instruction : Instruction) (before after : Processor) : Prop :=
  if ∀ reg ∈ instruction.written, reg.Ordinary then Touches instruction before after
  else before.act instruction = some after

theorem Touches.setReg {instruction : Instruction} {reg : Register}
    (written : reg ∈ instruction.written) (machine : Processor) (value : BitVec 64)
    (flags : Flags) :
    Touches instruction machine { machine.setReg reg value with flags } := by
  constructor
  · intro other apart
    have different : other ≠ reg := fun same => apart (same ▸ written)
    exact if_neg different
  · exact fun _ _ => rfl

theorem Touches.flags (instruction : Instruction) (machine : Processor) (flags : Flags) :
    Touches instruction machine { machine with flags } :=
  ⟨fun _ _ => rfl, fun _ _ => rfl⟩

theorem Touches.write {instruction : Instruction} {address : Address}
    (names : instruction.operand? = some address) (machine : Processor) {count : Nat}
    (few : count ≤ 8) (value : BitVec 64) (flags : Flags) :
    Touches instruction machine
      { machine with
        memory := machine.memory.write (machine.effective address) count value, flags } := by
  constructor
  · exact fun _ _ => rfl
  · intro place apart
    have outside := apart address names
    exact if_neg (by omega)

theorem Touches.alu {instruction : Instruction} {op : AluOp} {type : ValueType} {dst : Register}
    {right : BitVec 64} {machine next : Processor}
    (written : op ≠ .cmp → dst ∈ instruction.written)
    (runs : machine.alu op type dst right = some next) : Touches instruction machine next := by
  obtain ⟨result, _, rfl⟩ := Option.map_eq_some_iff.mp runs
  dsimp only
  split
  · exact .flags _ _ _
  · rename_i other
    exact .setReg (written other) _ _ _

theorem Touches.divided {instruction : Instruction} (written : instruction.written = [.rax, .rdx])
    (machine : Processor) (type : ValueType) (quotient remainder : BitVec type.bits) :
    Touches instruction machine (machine.divided type quotient remainder) := by
  constructor
  · intro reg apart
    rw [written, List.mem_cons, List.mem_singleton, not_or] at apart
    exact (if_neg apart.2).trans (if_neg apart.1)
  · exact fun _ _ => rfl

theorem touches_of_act {instruction : Instruction} {machine next : Processor}
    (ordinary : ∀ reg ∈ instruction.written, reg.Ordinary)
    (acts : machine.act instruction = some next) : Touches instruction machine next := by
  cases instruction
  case alu op type dst src => exact .alu (fun other => by simp [other]) acts
  case aluLoad op type dst src => exact .alu (fun other => by simp [other]) acts
  case aluImm op type dst imm => exact .alu (fun other => by simp [other]) acts
  case aluStoreImm op type dst imm =>
    obtain ⟨result, _, rfl⟩ := Option.map_eq_some_iff.mp acts
    dsimp only
    split
    · exact .flags _ _ _
    · exact .write rfl _ type.size_le _ _
  case push | pushImm | pushLoad | enterFrame | callReg | ret | pop =>
    exact absurd (ordinary .rsp (by simp)) (by decide)
  case unary op type reg =>
    cases op with
    | not =>
      cases acts
      exact .setReg (by simp) _ _ _
    | neg =>
      cases acts
      exact .setReg (by simp) _ _ _
    | div =>
      obtain ⟨_, ⟨⟩⟩ := Option.ite_none_left_eq_some.mp acts
      exact .divided rfl _ _ _ _
    | idiv =>
      obtain ⟨_, ⟨⟩⟩ := Option.ite_none_left_eq_some.mp acts
      exact .divided rfl _ _ _ _
  case shiftCl op type reg =>
    obtain ⟨result, _, rfl⟩ := Option.map_eq_some_iff.mp acts
    exact .setReg (by simp) _ _ _
  case shiftImm op type reg imm =>
    obtain ⟨result, _, rfl⟩ := Option.map_eq_some_iff.mp acts
    exact .setReg (by simp) _ _ _
  case scan op type dst src =>
    cases acts
    unfold scan
    cases op with
    | popcnt => exact .setReg (by simp) _ _ _
    | bsr =>
      dsimp only
      split
      · exact .flags _ _ _
      · exact .setReg (by simp) _ _ _
    | bsf =>
      dsimp only
      split
      · exact .flags _ _ _
      · exact .setReg (by simp) _ _ _
  case mov type dst src =>
    change (if type.isFloat then some (machine.setReg dst (machine.regs src))
      else some (machine.setReg dst (type.clip (machine.regs src)))) = some next at acts
    split at acts
    · cases acts
      exact .setReg (by simp) _ _ _
    · cases acts
      exact .setReg (by simp) _ _ _
  case storeByte dst src =>
    cases acts
    exact .write rfl _ (by decide) _ _
  case storeWord dst src =>
    cases acts
    exact .write rfl _ (by decide) _ _
  case logic op type dst src =>
    obtain ⟨_, ⟨⟩⟩ := Option.ite_none_right_eq_some.mp acts
    exact .setReg (by simp) _ _ _
  -- what is left writes one register, its operand or flags only, or is not known
  all_goals
    cases acts
    first
      | done
      | exact .setReg (by simp) _ _ _
      | exact .flags _ _ _
      | exact .write rfl _ (ValueType.size_le _) _ _

theorem takes_of_act {instruction : Instruction} {machine next : Processor}
    (acts : machine.act instruction = some next) : Takes instruction machine next := by
  unfold Takes
  split
  · rename_i ordinary
    exact touches_of_act ordinary acts
  · exact acts

/-- Where the words lie that a function returns with: the return address and, below it, the frame
pointer of the caller. -/
def Anchors (entry : Processor) (place : BitVec 64) : Prop :=
  (place - (entry.regs .rsp - 8)).toNat < 16

/-- A callee is back: both pointers are as before, and so are the words that the caller returns
with. -/
structure Returned (entry before after : Processor) : Prop where
  stack : after.regs .rsp = before.regs .rsp
  frame : after.regs .rbp = before.regs .rbp
  memory : ∀ place, entry.Anchors place → after.memory place = before.memory place

end Processor

/-- The positions that a run of code comes to, each with the processor there.  Accesses outside
the frame spare the words that the function returns with, and callees are called with the stack
less than two gigabytes deep. -/
inductive Program.Runs (program : Program) (listing : List Placed) (entry : Processor) :
    Nat → Processor → Prop
  | start : Runs program listing entry 0 entry
  | step {position : Nat} {instruction : Instruction} {machine next : Processor}
      (before : Runs program listing entry position machine)
      (here : ⟨position, .plain instruction⟩ ∈ listing) (goes : instruction.leaves = false)
      (takes : Processor.Takes instruction machine next)
      (spares : ∀ address, instruction.operand? = some address → address.base.Ordinary →
        ∀ place, entry.Anchors place → next.memory place = machine.memory place) :
      Runs program listing entry (position + instruction.length) next
  | call {position : Nat} {reg : Register} {machine next : Processor}
      (before : Runs program listing entry position machine)
      (here : ⟨position, .plain (.callReg reg)⟩ ∈ listing)
      (room : (entry.regs .rsp - machine.regs .rsp).toNat < 2147483648)
      (returned : Processor.Returned entry machine next) :
      Runs program listing entry (position + (Instruction.callReg reg).length) next
  | jump {position target : Nat} {condition : Option Condition} {distance : Distance}
      {field : Field} {machine : Processor}
      (before : Runs program listing entry position machine)
      (here : ⟨position, .jump condition distance⟩ ∈ listing)
      (jumps : Placed.field? ⟨position, .jump condition distance⟩ = some field)
      (leads : Code.displacement { bytes := program.code } field = target - field.finish) :
      Runs program listing entry target machine
  | pass {position : Nat} {condition : Condition} {distance : Distance} {machine : Processor}
      (before : Runs program listing entry position machine)
      (here : ⟨position, .jump (some condition) distance⟩ ∈ listing) :
      Runs program listing entry (Placed.finish ⟨position, .jump (some condition) distance⟩) machine

section Positions

variable {code : Code} {listing one other : List Placed} {finish : Nat} {stage last : Stage}
  {placed : Placed}

/-- What is listed first ends earlier. -/
theorem Code.Listed.suffix_le (listed : code.Listed listing finish) (within : one <:+ listing) :
    Placed.finishOf one ≤ finish ∧ (Placed.finishOf one = finish → one = listing) := by
  induction listed with
  | nil =>
    obtain rfl := List.suffix_nil.mp within
    exact ⟨Nat.le_refl _, fun _ => rfl⟩
  | cons before stands ih =>
    cases List.suffix_cons_iff.mp within with
    | inl whole =>
      subst whole
      exact ⟨Nat.le_of_eq stands.finish_eq, fun _ => rfl⟩
    | inr inside =>
      have earlier := (ih inside).1
      have starts := Placed.offset_lt stands
      exact ⟨by omega, fun same => by omega⟩

theorem Code.Listed.suffix_unique (listed : code.Listed listing finish)
    (first : one <:+ listing) (second : other <:+ listing)
    (same : Placed.finishOf one = Placed.finishOf other) : one = other := by
  cases List.suffix_or_suffix_of_suffix first second with
  | inl shorter => exact ((listed.suffix second).suffix_le shorter).2 same
  | inr longer => exact (((listed.suffix first).suffix_le longer).2 same.symm).symm

namespace Stage

def At (listing : List Placed) (position : Nat) (stage : Stage) : Prop :=
  ∃ before, before <:+ listing ∧ Placed.finishOf before = position ∧ behind before = some stage

theorem behind_suffix (reaches : behind listing = some last) (within : one <:+ listing) :
    ∃ stage, behind one = some stage := by
  induction listing generalizing last with
  | nil =>
    obtain rfl := List.suffix_nil.mp within
    exact ⟨_, reaches⟩
  | cons placed rest ih =>
    cases List.suffix_cons_iff.mp within with
    | inl whole =>
      subst whole
      exact ⟨_, reaches⟩
    | inr inside =>
      obtain ⟨offset, item⟩ := placed
      cases item with
      | plain instruction =>
        obtain ⟨before, earlier, _⟩ := Option.bind_eq_some_iff.mp reaches
        exact ih earlier inside
      | jump condition distance =>
        obtain ⟨before, earlier, _⟩ := Option.bind_eq_some_iff.mp reaches
        exact ih earlier inside

theorem At.unique {position : Nat} (listed : code.Listed listing finish)
    (first : At listing position stage) (second : At listing position last) : stage = last := by
  obtain ⟨one, within, ends, here⟩ := first
  obtain ⟨other, among, stops, there⟩ := second
  obtain rfl := listed.suffix_unique within among (ends.trans stops.symm)
  exact Option.some.inj (here.symm.trans there)

theorem At.next {position : Nat} {item : Item} (listed : code.Listed listing finish)
    (reaches : behind listing = some last) (member : ⟨position, item⟩ ∈ listing)
    (here : At listing position stage) :
    ∃ rest next, ⟨position, item⟩ :: rest <:+ listing ∧ behind rest = some stage ∧
      behind (⟨position, item⟩ :: rest) = some next := by
  obtain ⟨front, rest, rfl⟩ := List.append_of_mem member
  have within : ⟨position, item⟩ :: rest <:+ front ++ ⟨position, item⟩ :: rest :=
    List.suffix_append _ _
  obtain ⟨next, there⟩ := behind_suffix reaches within
  obtain ⟨before, among, ends, stage⟩ := here
  cases listed.suffix within with
  | cons older stands =>
    obtain rfl := listed.suffix_unique among ((List.suffix_cons _ _).trans within)
      (ends.trans older.finish_eq.symm)
    exact ⟨before, next, within, stage, there⟩

/-- The words that are pushed at a stage. -/
def words : Stage → Nat
  | .body words | .called words => words
  | _ => 0

theorem Goes.words {instruction : Instruction} {next : Stage} (goes : Goes stage instruction next) :
    next.words ≤ stage.words + 1 := by
  cases goes with
  | _ => simp [Stage.words]

/-- Every word takes an instruction to push it. -/
theorem words_le (listed : code.Listed listing finish) (reaches : behind listing = some stage) :
    stage.words ≤ finish := by
  induction listed generalizing stage with
  | nil =>
    cases reaches
    exact Nat.le_refl _
  | @cons placed rest finish before stands ih =>
    have starts := Placed.offset_lt stands
    obtain ⟨offset, item⟩ := placed
    cases item with
    | plain instruction =>
      obtain ⟨early, earlier, admits⟩ := Option.bind_eq_some_iff.mp reaches
      have grows := (goes_of_after admits).words
      have below := ih earlier
      dsimp only at starts below
      omega
    | jump condition distance =>
      obtain ⟨early, earlier, rests⟩ := Option.bind_eq_some_iff.mp reaches
      obtain ⟨rfl, ⟨⟩⟩ := Option.ite_none_right_eq_some.mp rests
      exact Nat.zero_le _

end Stage

end Positions

end WasmX64

/-! ## Every stage of a run -/

namespace WasmX64

namespace Processor

variable {entry before after : Processor} {instruction : Instruction} {place : BitVec 64}

theorem Takes.touches (takes : Takes instruction before after)
    (ordinary : ∀ reg ∈ instruction.written, reg.Ordinary) : Touches instruction before after := by
  rwa [Takes, if_pos ordinary] at takes

theorem Takes.acts (takes : Takes instruction before after) {reg : Register}
    (written : reg ∈ instruction.written) (pointer : ¬ reg.Ordinary) :
    before.act instruction = some after := by
  rwa [Takes, if_neg fun ordinary => pointer (ordinary reg written)] at takes

/-- The words that a function returns with are read where nothing has changed. -/
theorem read_anchored (same : ∀ place, entry.Anchors place → after.memory place = before.memory place) :
    after.memory.read (entry.regs .rsp) 8 = before.memory.read (entry.regs .rsp) 8 ∧
      after.memory.read (entry.regs .rsp - 8) 8 = before.memory.read (entry.regs .rsp - 8) 8 := by
  constructor
  · refine ByteMemory.read_congr fun offset small => same _ ?_
    unfold Anchors
    bv_omega
  · refine ByteMemory.read_congr fun offset small => same _ ?_
    unfold Anchors
    bv_omega

/-- The slots of a frame and the arguments above it spare the words that a function returns
with. -/
theorem anchors_apart {address : Address} {slots : Int} (few : slots < 134217728)
    (frame : before.regs .rbp = entry.regs .rsp - 8) (within : address.Within slots)
    (based : address.base = .rbp) (anchors : entry.Anchors place) :
    8 ≤ (place - before.effective address).toNat := by
  unfold Anchors at anchors
  obtain ⟨index, below, rfl⟩ | ⟨index, below, rfl⟩ := within based
  · have small : index < frameLimit := by
      unfold frameLimit
      omega
    rw [before.effective_slot small, slotAt, frame]
    unfold frameLimit at small
    bv_omega
  · have disp : (Int32.ofInt (16 + 8 * index)).toInt = ((16 + 8 * index : Nat) : Int) :=
      (Int32.toInt_ofInt_of_le (by omega) (by omega)).trans (by omega)
    rw [Address.argument, before.effective_based _ (by decide), disp, BitVec.ofInt_natCast, frame]
    bv_omega

/-- What is pushed below the frame pointer spares those words. -/
theorem push_anchored {value : BitVec 64} {depth : Nat} (deep : 8 ≤ depth)
    (shallow : depth < 1099511627776)
    (stack : before.regs .rsp = entry.regs .rsp - BitVec.ofNat 64 depth)
    (anchors : entry.Anchors place) : (before.push value).memory place = before.memory place := by
  refine if_neg ?_
  unfold Anchors at anchors
  rw [stack]
  bv_omega

end Processor

namespace Stage

/-- How far the stack pointer lies below the one at the entry. -/
def sunk (size : Nat) : Stage → Nat
  | .entry | .closed | .gone => 0
  | .saved | .based | .closing => 8
  | .body words | .called words => 8 + size + 8 * words

/-- Whether the frame pointer is that of the function. -/
def framed : Stage → Bool
  | .entry | .saved | .closed => false
  | _ => true

/-- The stack is not too deep behind a call. -/
def Roomy (size : Nat) : Stage → Prop
  | .called words => 8 + size + 8 * words < 2147483648
  | _ => True

/-- How a processor stands at a stage: the two pointers, the return address, the saved frame
pointer, and a stack that is not too deep behind a call. -/
structure Standing (size : Nat) (entry : Processor) (stage : Stage) (machine : Processor) :
    Prop where
  stack : stage ≠ .gone → machine.regs .rsp = entry.regs .rsp - BitVec.ofNat 64 (stage.sunk size)
  frame : machine.regs .rbp = if stage.framed then entry.regs .rsp - 8 else entry.regs .rbp
  caller : machine.memory.read (entry.regs .rsp) 8 = entry.memory.read (entry.regs .rsp) 8
  saved : stage ≠ .entry → machine.memory.read (entry.regs .rsp - 8) 8 = entry.regs .rbp
  room : stage.Roomy size

namespace Standing

variable {size words : Nat} {entry machine after : Processor} {stage next : Stage}
  {instruction : Instruction} {slots : Int}

theorem steady_anchored (standing : Standing size entry (.body words) machine)
    (steady : instruction.steady = true) (touches : Processor.Touches instruction machine after)
    (inside : instruction.Inside slots) (few : slots < 134217728)
    (spares : ∀ address, instruction.operand? = some address → address.base.Ordinary →
      ∀ place, entry.Anchors place → after.memory place = machine.memory place)
    (place : BitVec 64) (anchors : entry.Anchors place) :
    after.memory place = machine.memory place := by
  cases names : instruction.operand? with
  | none =>
    refine touches.memory place fun address found => ?_
    cases names.symm.trans found
  | some address =>
    have above : address.base ≠ .rsp := by
      simp only [Instruction.steady, names, Option.all_some, Bool.and_eq_true,
        decide_eq_true_eq] at steady
      exact steady.1.2
    by_cases based : address.base = .rbp
    · refine touches.memory place fun other same => ?_
      obtain rfl := Option.some.inj (names.symm.trans same)
      exact Processor.anchors_apart few standing.frame (inside address names) based anchors
    · exact spares address names ⟨above, based⟩ place anchors

/-- The pointers stay and so do the words that the function returns with. -/
theorem keep (standing : Standing size entry (.body words) machine)
    (stack : after.regs .rsp = machine.regs .rsp) (frame : after.regs .rbp = machine.regs .rbp)
    (same : ∀ place, entry.Anchors place → after.memory place = machine.memory place) :
    Standing size entry (.body words) after := by
  obtain ⟨caller, saved⟩ := Processor.read_anchored same
  refine ⟨fun inside => stack.trans (standing.stack inside), frame.trans standing.frame,
    caller.trans standing.caller, fun later => saved.trans (standing.saved later), trivial⟩

theorem push (standing : Standing size entry (.body words) machine)
    (shallow : 8 + size + 8 * words < 1099511627776) (value : BitVec 64) :
    Standing size entry (.body (words + 1)) (machine.push value) := by
  have stack := standing.stack (by simp)
  obtain ⟨caller, saved⟩ := Processor.read_anchored fun place =>
    @Processor.push_anchored entry machine place value _ (by omega) shallow stack
  refine ⟨fun _ => ?_, standing.frame, caller.trans standing.caller,
    fun later => saved.trans (standing.saved (by simp)), trivial⟩
  change machine.regs .rsp - 8 = _
  rw [stack]
  unfold sunk
  bv_omega

theorem enter (standing : Standing size entry .based machine) {space : UInt32}
    (whole : space.toNat = size) (small : size < 2147483648)
    (acts : machine.act (.enterFrame space) = some after) :
    Standing size entry (.body 0) after := by
  have signed : space.toInt32.toInt = size := by
    rw [← whole] at small ⊢
    exact BitVec.toInt_eq_toNat_of_lt (by simpa using by omega)
  have executed := machine.alu_i64 .sub .rsp (BitVec.ofInt 64 space.toInt32.toInt)
  cases executed.symm.trans acts
  refine ⟨fun _ => ?_, standing.frame, standing.caller, fun _ => standing.saved (by simp), trivial⟩
  change machine.regs .rsp - BitVec.ofInt 64 space.toInt32.toInt = _
  rw [standing.stack (by simp), signed, BitVec.ofInt_natCast]
  unfold sunk
  bv_omega

/-- What was pushed for a call is taken off again. -/
theorem drop (standing : Standing size entry (.called words) machine)
    (acts : machine.act (.aluImm .add .i64 .rsp (Int32.ofInt (8 * words))) = some after) :
    Standing size entry (.body 0) after := by
  have room : 8 + size + 8 * words < 2147483648 := standing.room
  have signed : (Int32.ofInt (8 * words)).toInt = ((8 * words : Nat) : Int) :=
    (Int32.toInt_ofInt_of_le (by omega) (by omega)).trans (by omega)
  have executed := machine.alu_i64 .add .rsp (BitVec.ofInt 64 (Int32.ofInt (8 * words)).toInt)
  cases executed.symm.trans acts
  refine ⟨fun _ => ?_, standing.frame, standing.caller, fun _ => standing.saved (by simp), trivial⟩
  change machine.regs .rsp + BitVec.ofInt 64 (Int32.ofInt (8 * words)).toInt = _
  rw [standing.stack (by simp), signed, BitVec.ofInt_natCast]
  unfold sunk
  bv_omega

theorem reserve (standing : Standing size entry (.body words) machine)
    (acts : machine.act (.aluImm .sub .i64 .rsp 8) = some after) :
    Standing size entry (.body (words + 1)) after := by
  have executed := machine.alu_i64 .sub .rsp (BitVec.ofInt 64 (8 : Int32).toInt)
  cases executed.symm.trans acts
  refine ⟨fun _ => ?_, standing.frame, standing.caller, fun _ => standing.saved (by simp), trivial⟩
  change machine.regs .rsp - 8 = _
  rw [standing.stack (by simp)]
  unfold sunk
  bv_omega

/-- The frame pointer of the caller is saved. -/
theorem save (standing : Standing size entry .entry machine) :
    Standing size entry .saved (machine.push (machine.regs .rbp)) := by
  have stack := standing.stack (by simp)
  have top : machine.regs .rsp = entry.regs .rsp := stack.trans (BitVec.sub_zero _)
  refine ⟨fun _ => ?_, standing.frame, ?_, fun _ => ?_, trivial⟩
  · change machine.regs .rsp - 8 = entry.regs .rsp - 8
    rw [top]
  · rw [← standing.caller]
    change (machine.memory.write (machine.regs .rsp - 8) 8 _).read _ 8 = _
    rw [top]
    refine ByteMemory.read_write_of_apart _ _ fun offset small => ?_
    bv_omega
  · change (machine.memory.write (machine.regs .rsp - 8) 8 (machine.regs .rbp)).read _ 8 = _
    rw [top, ByteMemory.read_write _ _ _ (Nat.le_refl 8), narrow_eq_self]
    exact standing.frame

/-- The frame pointer of the caller is restored. -/
theorem restore (standing : Standing size entry .closing machine) :
    Standing size entry .closed (machine.pop.2.setReg .rbp machine.pop.1) := by
  have top : machine.regs .rsp = entry.regs .rsp - 8 := standing.stack (by simp)
  refine ⟨fun _ => ?_, ?_, standing.caller, fun _ => standing.saved (by simp), trivial⟩
  · change machine.regs .rsp + 8 = entry.regs .rsp - 0
    rw [top]
    bv_omega
  · change machine.memory.read (machine.regs .rsp) 8 = entry.regs .rbp
    rw [top]
    exact standing.saved (by simp)

theorem put (standing : Standing size entry (.body words) machine) (some : 0 < words)
    (shallow : 8 + size + 8 * words < 1099511627776) {type : ValueType} {src : Register}
    (touches : Processor.Touches (.floatStore type (.based .rsp 0) src) machine after) :
    Standing size entry (.body words) after := by
  have top : machine.effective (.based .rsp 0) =
      entry.regs .rsp - BitVec.ofNat 64 (8 + size + 8 * words) := by
    rw [machine.effective_based _ (by decide)]
    exact (BitVec.add_zero _).trans (standing.stack (by simp))
  refine standing.keep (touches.regs _ (by simp)) (touches.regs _ (by simp)) fun place anchors => ?_
  refine touches.memory place fun address same => ?_
  cases same
  rw [top]
  unfold Processor.Anchors at anchors
  bv_omega

theorem step (standing : Standing size entry stage machine) (goes : Goes stage instruction next)
    (takes : Processor.Takes instruction machine after) (stays : instruction.leaves = false)
    (inside : instruction.Inside slots) (few : slots < 134217728) (small : size < 2147483648)
    (opens : ∀ space, instruction = .enterFrame space → space.toNat = size)
    (shallow : stage.words < 2147483648)
    (spares : ∀ address, instruction.operand? = some address → address.base.Ordinary →
      ∀ place, entry.Anchors place → after.memory place = machine.memory place) :
    Standing size entry next after := by
  cases goes with
  | save =>
    cases takes.acts List.mem_cons_self (by decide : ¬ Register.rsp.Ordinary)
    exact standing.save
  | base =>
    cases takes.acts List.mem_cons_self (by decide : ¬ Register.rbp.Ordinary)
    refine ⟨fun _ => standing.stack (by simp), ?_, standing.caller, fun _ => standing.saved (by simp),
      trivial⟩
    exact (ValueType.clip_i64 _).trans (standing.stack (by simp))
  | enter space =>
    have acts := takes.acts List.mem_cons_self (by decide : ¬ Register.rsp.Ordinary)
    exact standing.enter (opens space rfl) small acts
  | @steady words _ steady =>
    have ordinary : ∀ reg ∈ instruction.written, reg.Ordinary := by
      simp only [Instruction.steady, Bool.and_eq_true, decide_eq_true_eq] at steady
      exact steady.1.1
    have touches := takes.touches ordinary
    have stays (reg : Register) (pointer : ¬ reg.Ordinary) :
        after.regs reg = machine.regs reg :=
      touches.regs reg fun written => pointer (ordinary reg written)
    exact standing.keep (stays .rsp (by decide)) (stays .rbp (by decide))
      (standing.steady_anchored steady touches inside few spares)
  | push words reg =>
    cases takes.acts List.mem_cons_self (by decide : ¬ Register.rsp.Ordinary)
    have few : words < 2147483648 := shallow
    exact standing.push (by omega) _
  | pushImm words imm =>
    cases takes.acts List.mem_cons_self (by decide : ¬ Register.rsp.Ordinary)
    have few : words < 2147483648 := shallow
    exact standing.push (by omega) _
  | pushLoad words address =>
    cases takes.acts List.mem_cons_self (by decide : ¬ Register.rsp.Ordinary)
    have few : words < 2147483648 := shallow
    exact standing.push (by omega) _
  | reserve words =>
    exact standing.reserve (takes.acts List.mem_cons_self (by decide : ¬ Register.rsp.Ordinary))
  | @put words some type src =>
    have few : words < 2147483648 := shallow
    exact standing.put some (by omega) (takes.touches (by simp))
  | call | callOver | leave | resume => cases stays
  | drop words =>
    exact standing.drop (takes.acts List.mem_cons_self (by decide : ¬ Register.rsp.Ordinary))
  | close =>
    cases takes.acts List.mem_cons_self (by decide : ¬ Register.rsp.Ordinary)
    refine ⟨fun _ => ?_, standing.frame, standing.caller, fun _ => standing.saved (by simp), trivial⟩
    exact (ValueType.clip_i64 _).trans standing.frame
  | restore =>
    cases takes.acts List.mem_cons_self (by decide : ¬ Register.rsp.Ordinary)
    exact standing.restore
  | yield address ordinary =>
    cases takes.acts List.mem_cons_self (by decide : ¬ Register.rsp.Ordinary)
    refine ⟨fun other => absurd rfl other, standing.frame, standing.caller,
      fun _ => standing.saved (by simp), trivial⟩

theorem call (standing : Standing size entry stage machine) {reg : Register}
    (goes : Goes stage (.callReg reg) next) (small : size < 2147483648)
    (shallow : stage.words < 2147483648)
    (room : (entry.regs .rsp - machine.regs .rsp).toNat < 2147483648)
    (returned : Processor.Returned entry machine after) : Standing size entry next after := by
  obtain ⟨caller, saved⟩ := Processor.read_anchored returned.memory
  cases goes with
  | steady steady => simp [Instruction.steady] at steady
  | call reg => exact standing.keep returned.stack returned.frame returned.memory
  | @callOver words some even reg =>
    have few : words < 2147483648 := shallow
    have stack : machine.regs .rsp = entry.regs .rsp - BitVec.ofNat 64 (8 + size + 8 * words) :=
      standing.stack (by simp)
    refine ⟨fun _ => returned.stack.trans stack, returned.frame.trans standing.frame,
      caller.trans standing.caller, fun _ => saved.trans (standing.saved (by simp)), ?_⟩
    change 8 + size + 8 * words < 2147483648
    rw [stack] at room
    bv_omega

end Standing

end Stage

section Runs

variable {program : Program} {listing : List Placed} {entry machine : Processor} {position : Nat}

/-- The space of a frame as a number of bytes. -/
def Program.space (program : Program) : Nat := (Program.frameSize program.frameSlots).toNat

/-- A program with a map of its code and a frame that displacements reach. -/
structure Program.Fitting (program : Program) (listing : List Placed) : Prop where
  mapped : program.Mapped listing
  small : program.code.size < 2147483648
  positive : 0 ≤ program.frameSlots
  few : program.frameSlots < 134217728

namespace Program.Fitting

theorem space_spec (fitting : program.Fitting listing) :
    program.space % 16 = 0 ∧ program.space < 2147483648 := by
  obtain ⟨aligned, _, below⟩ := Program.frameSize_spec fitting.positive fitting.few
  have few := fitting.few
  unfold Program.space
  omega

theorem opens (fitting : program.Fitting listing) {size : UInt32}
    (member : ⟨position, .plain (.enterFrame size)⟩ ∈ listing) : size.toNat = program.space := by
  obtain ⟨front, whole, apart⟩ := fitting.mapped.opens
  rw [whole] at member
  cases List.mem_append.mp member with
  | inl early => exact absurd rfl (apart _ early size)
  | inr late =>
    simp only [frameOpened, List.mem_cons, Placed.mk.injEq, Item.plain.injEq,
      Instruction.enterFrame.injEq, List.not_mem_nil, reduceCtorEq, and_false, or_false] at late
    rw [late.2]
    rfl

theorem around (fitting : program.Fitting listing) {item : Item} {stage : Stage}
    (member : ⟨position, item⟩ ∈ listing) (here : Stage.At listing position stage) :
    ∃ rest next, ⟨position, item⟩ :: rest <:+ listing ∧ Stage.behind rest = some stage ∧
      Stage.behind (⟨position, item⟩ :: rest) = some next ∧ stage.words < 2147483648 := by
  obtain ⟨rest, next, within, before, there⟩ :=
    here.next fitting.mapped.listed fitting.mapped.stage member
  have inner : rest <:+ listing := (List.suffix_cons _ _).trans within
  have words := Stage.words_le (fitting.mapped.listed.suffix inner) before
  have below := (fitting.mapped.listed.suffix_le inner).1
  have small := fitting.small
  exact ⟨rest, next, within, before, there, by omega⟩

theorem around_plain (fitting : program.Fitting listing) {instruction : Instruction}
    {stage : Stage} (member : ⟨position, .plain instruction⟩ ∈ listing)
    (here : Stage.At listing position stage) :
    ∃ next, stage.Goes instruction next ∧
      Stage.At listing (position + instruction.length) next ∧ stage.words < 2147483648 := by
  obtain ⟨rest, next, within, before, there, few⟩ := fitting.around member here
  refine ⟨next, ?_, ⟨_, within, rfl, there⟩, few⟩
  rw [Stage.behind, before] at there
  exact Stage.goes_of_after there

theorem around_jump (fitting : program.Fitting listing) {condition : Option Condition}
    {distance : Distance} {stage : Stage} (member : ⟨position, .jump condition distance⟩ ∈ listing)
    (here : Stage.At listing position stage) :
    stage = .body 0 ∧
      Stage.At listing (Placed.finish ⟨position, .jump condition distance⟩) (.body 0) := by
  obtain ⟨rest, next, within, before, there, _⟩ := fitting.around member here
  have behind := there
  rw [Stage.behind, before] at there
  obtain ⟨rfl, ⟨⟩⟩ := Option.ite_none_right_eq_some.mp there
  exact ⟨rfl, ⟨_, within, rfl, behind⟩⟩

theorem stands (fitting : program.Fitting listing)
    (runs : program.Runs listing entry position machine) :
    ∃ stage, Stage.At listing position stage ∧ stage.Standing program.space entry machine := by
  have small := fitting.space_spec.2
  induction runs with
  | start =>
    refine ⟨.entry, ⟨[], List.nil_suffix, rfl, rfl⟩, ?_⟩
    exact ⟨fun _ => (BitVec.sub_zero _).symm, rfl, rfl, fun other => absurd rfl other, trivial⟩
  | step before here stays takes spares ih =>
    obtain ⟨stage, place, standing⟩ := ih
    obtain ⟨next, goes, behind, few⟩ := fitting.around_plain here place
    refine ⟨next, behind, ?_⟩
    refine standing.step goes takes stays (fitting.mapped.inside _ here).1 fitting.few small ?_ few
      spares
    rintro space rfl
    exact fitting.opens here
  | call before here room returned ih =>
    obtain ⟨stage, place, standing⟩ := ih
    obtain ⟨next, goes, behind, few⟩ := fitting.around_plain here place
    exact ⟨next, behind, standing.call goes small few room returned⟩
  | @jump _ target _ _ _ _ before here jumps leads ih =>
    obtain ⟨stage, place, standing⟩ := ih
    obtain ⟨rfl, _⟩ := fitting.around_jump here place
    obtain ⟨other, same, rests⟩ := fitting.mapped.lands _ here _ jumps
    have equal : target = other := by omega
    exact ⟨.body 0, equal ▸ rests, standing⟩
  | pass before here ih =>
    obtain ⟨stage, place, standing⟩ := ih
    obtain ⟨rfl, behind⟩ := fitting.around_jump here place
    exact ⟨.body 0, behind, standing⟩

/-- Behind a call that words were pushed for they are taken off. -/
theorem dropped (fitting : program.Fitting listing) {words : Nat}
    (here : Stage.At listing position (.called words)) :
    ⟨position, .plain (.aluImm .add .i64 .rsp (Int32.ofInt (8 * words)))⟩ ∈ listing := by
  obtain ⟨before, ⟨front, whole⟩, ends, stage⟩ := here
  rcases List.eq_nil_or_concat front with rfl | ⟨later, ⟨offset, item⟩, rfl⟩
  · rw [← whole, List.nil_append] at fitting
    cases stage.symm.trans fitting.mapped.stage
  · have within : ⟨offset, item⟩ :: before <:+ listing :=
      ⟨later, by rw [← whole, List.concat_append]⟩
    obtain ⟨next, behind⟩ := Stage.behind_suffix fitting.mapped.stage within
    have place : offset = position := by
      cases fitting.mapped.listed.suffix within with
      | cons older stands => exact older.finish_eq.symm.trans ends
    subst place
    refine within.subset ?_
    cases item with
    | plain instruction =>
      rw [Stage.behind, stage] at behind
      have goes : (Stage.called words).Goes instruction next := Stage.goes_of_after behind
      cases goes with
      | drop => exact List.mem_cons_self
    | jump condition distance =>
      rw [Stage.behind, stage] at behind
      cases behind

end Program.Fitting

end Runs

/-- How a function handles the stack in every run from an entry.  Where nothing is pushed, as
between two instructions of the program, the stack pointer lies the space of the frame below the
frame pointer.  At a call it is aligned and lies lower by a number of words, and behind the call
just these are taken off.  At a return both pointers are those of the caller, and the word on top
is the return address. -/
structure Program.Balanced (program : Program) (listing : List Placed) (entry : Processor) :
    Prop where
  rests : ∀ position machine, program.Runs listing entry position machine →
    Rests listing position → machine.regs .rbp = entry.regs .rsp - 8 ∧
      machine.regs .rsp = machine.regs .rbp - BitVec.ofNat 64 program.space
  calls : ∀ position reg machine, program.Runs listing entry position machine →
    ⟨position, .plain (.callReg reg)⟩ ∈ listing →
    16 ∣ (machine.regs .rsp).toNat ∧ ∃ words : Nat, words < 2147483648 ∧
      machine.regs .rsp + BitVec.ofNat 64 (8 * words) =
        machine.regs .rbp - BitVec.ofNat 64 program.space ∧
      (words = 0 ∧ Rests listing (position + (Instruction.callReg reg).length) ∨
        ∃ imm : Int32, ⟨position + (Instruction.callReg reg).length,
            .plain (.aluImm .add .i64 .rsp imm)⟩ ∈ listing ∧
          ((entry.regs .rsp - machine.regs .rsp).toNat < 2147483648 →
            imm.toInt = 8 * (words : Int)))
  returns : ∀ position machine, program.Runs listing entry position machine →
    ⟨position, .plain .ret⟩ ∈ listing →
    machine.regs .rsp = entry.regs .rsp ∧ machine.regs .rbp = entry.regs .rbp ∧
      machine.memory.read (machine.regs .rsp) 8 = entry.memory.read (entry.regs .rsp) 8

/-- A stack that is eight bytes off its alignment at the entry is handled so. -/
theorem Program.Fitting.balanced {program : Program} {listing : List Placed}
    (fitting : program.Fitting listing) {entry : Processor}
    (aligned : (entry.regs .rsp).toNat % 16 = 8) : program.Balanced listing entry := by
  obtain ⟨sixteen, small⟩ := fitting.space_spec
  constructor
  · intro position machine runs rests
    obtain ⟨stage, here, standing⟩ := fitting.stands runs
    obtain rfl := here.unique fitting.mapped.listed rests
    refine ⟨standing.frame, ?_⟩
    have frame : machine.regs .rbp = entry.regs .rsp - 8 := standing.frame
    rw [standing.stack (by simp), frame]
    unfold Stage.sunk
    bv_omega
  · intro position reg machine runs member
    obtain ⟨stage, here, standing⟩ := fitting.stands runs
    obtain ⟨next, goes, behind, few⟩ := fitting.around_plain member here
    have frame : ∀ words, stage = .body words → machine.regs .rbp = entry.regs .rsp - 8 := by
      rintro words rfl
      exact standing.frame
    have stack : ∀ words, stage = .body words →
        machine.regs .rsp = entry.regs .rsp - BitVec.ofNat 64 (8 + program.space + 8 * words) := by
      rintro words rfl
      exact standing.stack (by simp)
    cases goes with
    | steady steady => simp [Instruction.steady] at steady
    | call reg =>
      have stack := stack 0 rfl
      have frame := frame 0 rfl
      refine ⟨?_, 0, by decide, ?_, .inl ⟨rfl, behind⟩⟩
      · rw [stack]
        bv_omega
      · rw [stack, frame]
        bv_omega
    | @callOver words some even reg =>
      have stack := stack words rfl
      have frame := frame words rfl
      have few : words < 2147483648 := few
      refine ⟨?_, words, few, ?_, .inr ⟨_, fitting.dropped behind, fun room => ?_⟩⟩
      · rw [stack]
        bv_omega
      · rw [stack, frame]
        bv_omega
      · rw [stack] at room
        have shallow : 8 * words < 2147483648 := by bv_omega
        exact Int32.toInt_ofInt_of_le (by omega) (by omega)
  · intro position machine runs member
    obtain ⟨stage, here, standing⟩ := fitting.stands runs
    obtain ⟨next, goes, _, _⟩ := fitting.around_plain member here
    cases goes with
    | steady steady => simp [Instruction.steady] at steady
    | leave =>
      have stack : machine.regs .rsp = entry.regs .rsp :=
        (standing.stack (by simp)).trans (BitVec.sub_zero _)
      exact ⟨stack, standing.frame, by rw [stack]; exact standing.caller⟩

/-- How a thunk handles the stack from an entry on.  At its call, at an offset of its code, the
stack is aligned and lies a number of words lower than in front of the arguments.  Behind the call
these words are taken off, where a trap resumes as well, and the last instruction returns with the
pointers of the host.  The callee brings back the stack pointer and spares what is kept for the
host. -/
structure Thunk.Balanced (words : Nat) (code : List UInt8) (resumeAt : Nat) (cell : UInt64)
    (entry : Processor) (call : Nat) (called : Processor) : Prop where
  reaches : Processor.Travels code 0 entry call called
  calls : [0xff, 0xd0] <+: code.drop call
  ends : code.getLast? = some 0xc3
  aligned : 16 ∣ (called.regs .rsp).toNat
  pushed : called.regs .rsp + BitVec.ofNat 64 (8 * words) = entry.regs .rsp - 56
  drops : ∀ back : Processor, (entry.regs .rsp - called.regs .rsp).toNat < 2147483648 →
    back.regs .rsp = called.regs .rsp → Thunk.Spares entry cell called.memory back.memory →
    ∃ resumed, Processor.Travels code (call + 2) back resumeAt resumed ∧
      resumed.regs .rsp = entry.regs .rsp - 56 ∧ resumed.memory = back.memory
  returns : ∀ resumed : Processor, resumed.regs .rsp = entry.regs .rsp - 56 →
    Thunk.Spares entry cell called.memory resumed.memory →
    ∃ final, Processor.Travels code resumeAt resumed (code.length - 1) final ∧
      final.regs .rsp = entry.regs .rsp ∧ final.regs .rbp = entry.regs .rbp

theorem Thunk.balanced {type : FuncType} {target cell : UInt64} {thunk : Thunk}
    (built : Thunk.build (.ofType type) target cell = .ok thunk) (address : UInt64)
    {entry : Processor} (apart : Thunk.Apart (.ofType type) cell entry)
    (aligned : (entry.regs .rsp).toNat % 16 = 8) :
    ∃ call called, Thunk.Balanced (Signature.ofType type).words (thunk.link address)
      thunk.resumeAt cell entry call called := by
  obtain ⟨front, middle, back, laid, resumeAt⟩ := Thunk.build_laid built address
  obtain ⟨called, runs, aimed, stack, awaits⟩ := laid.reaches_call apart
  have even := (Signature.ofType type).words_even
  have room : 8 * (7 + (Signature.ofType type).words) < 2 ^ 64 :=
    Nat.lt_of_le_of_lt (apart 0 (by decide)) (BitVec.isLt _)
  refine ⟨front.length, called, runs, ?_, ?_, ?_, ?_, ?_, ?_⟩
  · refine @Thunk.row_held _ front _ (middle ++ back ++ [0xc3]) _ ?_ rfl
    simp only [laid.whole, List.append_assoc]
  · rw [laid.whole, List.getLast?_append]
    rfl
  · rw [stack]
    bv_omega
  · rw [stack]
    bv_omega
  · intro returned shallow balanced spares
    have few : 8 * (Signature.ofType type).words < 2147483648 := by
      rw [stack] at shallow
      bv_omega
    obtain ⟨resumed, travels, top, memory, _⟩ :=
      laid.collects_result few (balanced.trans stack)
    exact ⟨resumed, resumeAt ▸ travels, top, memory⟩
  · intro resumed top spares
    obtain ⟨final, travels, restored, _, _⟩ := laid.restores_host top (awaits.spared spares)
    exact ⟨final, resumeAt ▸ travels, restored.stack, restored.saved .rbp (by decide)⟩

/-- The stack pointer is disciplined.  Compiled code with fewer than 2 ^ 27 slots and labels that
reach their targets, and every thunk, handle the stack as said above when it is eight bytes off
its alignment at the entry.  Between any two instructions of the program nothing is pushed. -/
theorem stack_disciplined :
    (∀ (module : Option Module) (host : Host) (index : UInt32) (compiled : Compiled),
      (compileFunction module host index).outcome = .ok compiled →
      compiled.program.code.size < 2147483648 → compiled.program.frameSlots < 134217728 →
      ∃ listing, compiled.program.Mapped listing ∧
        (∀ count state, compilingAfter module host index count = .ok state →
          Rests listing state.output.code.size) ∧
        ∀ entry : Processor, (entry.regs .rsp).toNat % 16 = 8 →
          compiled.program.Balanced listing entry) ∧
    ∀ (type : FuncType) (target cell : UInt64) (thunk : Thunk),
      Thunk.build (.ofType type) target cell = .ok thunk →
      ∀ (address : UInt64) (entry : Processor), Thunk.Apart (.ofType type) cell entry →
        (entry.regs .rsp).toNat % 16 = 8 →
        ∃ call called, Thunk.Balanced (Signature.ofType type).words (thunk.link address)
          thunk.resumeAt cell entry call called := by
  constructor
  · intro module host index compiled compiles small few
    obtain ⟨listing, mapped, rests⟩ := compileFunction_mapped compiles small
    refine ⟨listing, mapped, rests, fun entry aligned => ?_⟩
    have fitting : compiled.program.Fitting listing :=
      ⟨mapped, small, frameSlots_positive compiles, few⟩
    exact fitting.balanced aligned
  · intro type target cell thunk built address entry apart aligned
    exact Thunk.balanced built address apart aligned

theorem Program.Mapped.run_opens {program : Program} {listing : List Placed}
    (mapped : program.Mapped listing) (entry : Processor) :
    Rests listing 11 ∧ ∃ machine, program.Runs listing entry 11 machine := by
  obtain ⟨front, whole, _⟩ := mapped.opens
  refine ⟨⟨frameOpened _, ⟨front, whole.symm⟩, rfl, rfl⟩, ?_⟩
  have among : ∀ placed ∈ frameOpened (Program.frameSize program.frameSlots), placed ∈ listing :=
    fun placed member => whole ▸ List.mem_append_right front member
  let saved := entry.push (entry.regs .rbp)
  let based := saved.setReg .rbp (ValueType.i64.clip (saved.regs .rsp))
  have first : program.Runs listing entry 1 saved :=
    .step .start (among ⟨0, .plain (.push .rbp)⟩ (by simp [frameOpened])) rfl
      (Processor.takes_of_act rfl) fun address names => by cases names
  have second : program.Runs listing entry 4 based :=
    .step first (among ⟨1, .plain (.mov .i64 .rbp .rsp)⟩ (by simp [frameOpened])) rfl
      (Processor.takes_of_act rfl) fun address names => by cases names
  have third := based.alu_i64 .sub .rsp
    (BitVec.ofInt 64 (Program.frameSize program.frameSlots).toInt32.toInt)
  exact ⟨_, .step second (among _ List.mem_cons_self) rfl (Processor.takes_of_act third)
    fun address names => by cases names⟩

/-- A function that is called with a stack eight bytes off its alignment. -/
def entered : Processor := { regs := fun _ => 0x10008, memory := fun _ => 0 }

/-- A function with arguments on the stack that has opened its frame of eighty bytes, and the call
of a thunk that has pushed as many arguments. -/
theorem stack_disciplined_turningArguments :
    ∃ compiled listing machine,
      (compileFunction (some turningArguments) {} 0).outcome = .ok compiled ∧
      compiled.program.Runs listing entered 11 machine ∧
      machine.regs .rsp = machine.regs .rbp - 80 ∧ compiled.program.Balanced listing entered ∧
      ∃ thunk call called, Thunk.build (.ofType ⟨List.replicate 8 .i32, [.i32]⟩) 0x1000 0x2000 =
          .ok thunk ∧
        Thunk.Balanced 2 (thunk.link 0x3000) thunk.resumeAt 0x2000 entered call called := by
  obtain ⟨functions, thunks⟩ := stack_disciplined
  have fine : (compileFunction (some turningArguments) {} 0).outcome.toOption.any
      (fun compiled => compiled.program.frameSlots = 8 ∧
        compiled.program.code.size < 2147483648) = true := by decide +kernel
  obtain ⟨thunk, built⟩ :=
    @Thunk.build_succeeds ⟨List.replicate 8 .i32, [.i32]⟩ (by decide) 0x1000 0x2000
  have apart : Thunk.Apart (.ofType ⟨List.replicate 8 .i32, [.i32]⟩) 0x2000 entered := by
    intro offset inside
    have words : (Signature.ofType ⟨List.replicate 8 .i32, [.i32]⟩).words = 2 := by decide
    unfold trapCellSize at inside
    rw [words]
    change 72 ≤ ((0x10008 : BitVec 64) - 1 - (0x2000 + BitVec.ofNat 64 offset)).toNat
    bv_omega
  obtain ⟨call, called, balanced⟩ := thunks _ _ _ thunk built 0x3000 entered apart (by decide)
  obtain ⟨compiled, compiles, slots, small⟩ := Except.exists_of_any fine
  obtain ⟨listing, mapped, _, disciplined⟩ := functions _ _ _ compiled compiles small (by omega)
  obtain ⟨rests, machine, runs⟩ := mapped.run_opens entered
  have stands := ((disciplined entered (by decide)).rests 11 machine runs rests).2
  have space : compiled.program.space = 80 := by
    unfold Program.space
    rw [slots]
    rfl
  rw [space] at stands
  exact ⟨compiled, listing, machine, compiles, runs, stands, disciplined entered (by decide),
    thunk, call, called, built, balanced⟩

end WasmX64
