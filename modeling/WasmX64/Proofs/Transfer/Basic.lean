import WasmX64.Proofs.Layout.Sound
import WasmX64.Proofs.Compile.Logic
import WasmX64.Proofs.Sequence.Moves

/-!
# Transfers and the code they have emitted

How the tables of a transfer change, and `Transfer.Reached`, which ties a transfer
to the state of a processor that has run the code emitted so far.
-/

namespace WasmX64

namespace RegSet

theorem toList_erase_perm {set : RegSet} {reg : Register} (member : set.has reg = true) :
    set.toList.Perm (reg :: (set.erase reg).toList) := by
  have inside : reg ∈ set.toList := mem_toList.mpr member
  have erased : (set.erase reg).toList = set.toList.erase reg := by
    rw [(nodup_toList set).erase_eq_filter]
    simp only [toList, List.filter_filter]
    apply List.filter_congr
    intro other _
    rw [has_erase, Bool.and_comm]
    by_cases same : other = reg
    · simp [same]
    · simp [same, bne]
  rw [erased]
  exact List.perm_cons_erase inside

theorem length_toList_erase {set : RegSet} {reg : Register}
    (member : set.has reg = true) :
    set.toList.length = (set.erase reg).toList.length + 1 := by
  simpa using (toList_erase_perm member).length_eq

theorem length_toList_le (set : RegSet) : set.toList.length ≤ 32 := by
  have bound := List.length_filter_le set.has Register.all
  have all : Register.all.length = 32 := by simp [Register.all]
  rw [all] at bound
  exact bound

end RegSet

theorem Output.frameSlots_needSlot (output : Output) (index : Int) :
    (output.needSlot index).frameSlots = max output.frameSlots (index + 1) := by
  unfold needSlot
  split
  · dsimp only
    omega
  · omega

namespace Transfer

variable {transfer : Transfer}

theorem moveInto_setMove {target : Register} (machine : target.isMachine = true)
    (move : Move) (other : Register) :
    (transfer.setMove target move).moveInto other =
      if other = target then move else transfer.moveInto other := by
  have small := Register.code_lt_of_isMachine machine
  unfold moveInto setMove
  simp only [Vector.toArray_setIfInBounds, Array.getElem?_setIfInBounds,
    Vector.size_toArray]
  by_cases same : other = target
  · subst same
    simp [small]
  · have different : target.code.toNat ≠ other.code.toNat := fun equality =>
      same (Register.eq_of_toNat_eq equality.symm)
    simp [same, different]

theorem loadInto_setLoad {target : Register} (machine : target.isMachine = true)
    (load : Load) (other : Register) :
    (transfer.setLoad target load).loadInto other =
      if other = target then load else transfer.loadInto other := by
  have small := Register.code_lt_of_isMachine machine
  unfold loadInto setLoad
  simp only [Vector.toArray_setIfInBounds, Array.getElem?_setIfInBounds,
    Vector.size_toArray]
  by_cases same : other = target
  · subst same
    simp [small]
  · have different : target.code.toNat ≠ other.code.toNat := fun equality =>
      same (Register.eq_of_toNat_eq equality.symm)
    simp [same, different]

theorem readers_addReaders {reg : Register} (machine : reg.isMachine = true) (change : Int)
    (other : Register) :
    (transfer.addReaders reg change).readers other =
      if other = reg then transfer.readers reg + change else transfer.readers other := by
  have small := Register.code_lt_of_isMachine machine
  unfold addReaders
  by_cases same : other = reg
  · subst same
    simp [readers, Vector.toArray_setIfInBounds, small]
  · have different : reg.code.toNat ≠ other.code.toNat := fun equality =>
      same (Register.eq_of_toNat_eq equality.symm)
    simp [readers, Vector.toArray_setIfInBounds, same, different]

/-- The code of a transfer has grown by instructions that take one machine state to
another. -/
def Reached (code : Code) (start : Processor) (transfer : Transfer)
    (machine : Processor) : Prop :=
  ∃ instructions, code.Grows instructions transfer.output.code ∧
    start.run instructions = some machine

namespace Reached

variable {code : Code} {start machine next : Processor}

theorem refl (transfer : Transfer) (machine : Processor) :
    Reached transfer.output.code machine transfer machine :=
  ⟨[], .refl _, rfl⟩

theorem congr {other : Transfer} (reached : Reached code start transfer machine)
    (same : other.output.code = transfer.output.code) :
    Reached code start other machine := by
  obtain ⟨instructions, grows, runs⟩ := reached
  exact ⟨instructions, same ▸ grows, runs⟩

theorem emit {steps : List Step} {instructions : List Instruction}
    (reached : Reached code start transfer machine)
    (runs : Runs steps machine next instructions) :
    Reached code start (transfer.emit steps) next := by
  obtain ⟨earlier, grows, ran⟩ := reached
  obtain ⟨bytes, encodes⟩ := runs.encodes
  refine ⟨earlier ++ instructions, ?_, ?_⟩
  · have placed := Code.grows_place transfer.output.code encodes
    rw [← runs.steps] at placed
    exact grows.trans placed
  · rw [Processor.run_append, ran]
    exact runs.runs

end Reached

end Transfer

end WasmX64
