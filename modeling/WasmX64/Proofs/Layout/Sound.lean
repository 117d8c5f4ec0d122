import WasmX64.Layout.Basic
import WasmX64.Proofs.Register.Set

/-!
# Sound layouts

`Layout.problem?` looks for an inconsistency; a layout is sound when it finds
none.  The bookkeeping part is stated against a list of held registers, so that
the moments between taking a slot away and releasing its register can be
described as well: `Balanced layout held` says that `used` and `counts` describe
`held`, and a sound layout is balanced against the registers of its own slots.
-/

namespace WasmX64

/-- A register that can hold the value of a slot. -/
def Register.isAllocable (reg : Register) : Bool :=
  reg.isMachine && !RegSet.reserved.has reg

theorem Register.isMachine_of_isAllocable {reg : Register}
    (allocable : reg.isAllocable = true) : reg.isMachine = true := by
  simp only [isAllocable, Bool.and_eq_true] at allocable
  exact allocable.1

theorem Register.not_reserved_of_isAllocable {reg : Register}
    (allocable : reg.isAllocable = true) : RegSet.reserved.has reg = false := by
  simpa [isAllocable, isMachine_of_isAllocable allocable] using allocable

theorem Slot.reg?_eq_some_iff {slot : Slot} {reg : Register} :
    slot.reg? = some reg ↔ slot.place = .reg reg := by
  unfold reg?
  cases slot.place <;> simp

/-- The place of a slot suits its type. -/
def Slot.Fits (slot : Slot) : Prop :=
  ∀ reg, slot.place = .reg reg →
    reg.isAllocable = true ∧ reg.regClass = slot.type.regClass

namespace Layout

/-- The registers that the slots of a layout hold, with repetitions. -/
def registers (layout : Layout) : List Register :=
  layout.slots.toList.filterMap Slot.reg?

/-- `used` and `counts` describe a list of held registers. -/
structure Balanced (layout : Layout) (held : List Register) : Prop where
  reserved : ∀ reg, RegSet.reserved.has reg = true → layout.used.has reg = true
  counted : ∀ reg, reg.isAllocable = true → layout.count reg = held.count reg
  inUse : ∀ reg, reg.isAllocable = true →
    (layout.used.has reg = true ↔ reg ∈ held)

/-- A layout in which nothing is inconsistent. -/
structure Sound (layout : Layout) : Prop where
  fits : ∀ slot ∈ layout.slots, slot.Fits
  balanced : layout.Balanced layout.registers

/-- No register is counted more often than there are slots. -/
theorem Sound.count_le_height {layout : Layout} (sound : layout.Sound) {reg : Register}
    (allocable : reg.isAllocable = true) : layout.count reg ≤ layout.height := by
  rw [sound.balanced.counted reg allocable]
  calc layout.registers.count reg
    _ ≤ layout.registers.length := List.count_le_length
    _ ≤ layout.slots.toList.length := List.length_filterMap_le _ _
    _ = layout.height := Array.length_toList

theorem holders_eq_count (slots : List Slot) (reg : Register) :
    holders slots reg = (slots.filterMap Slot.reg?).count reg := by
  induction slots with
  | nil => rfl
  | cons slot rest ih =>
    unfold holders at ih ⊢
    cases place : slot.place with
    | reg own =>
      have held : slot.reg? = some own := Slot.reg?_eq_some_iff.mpr place
      simp [List.countP_cons, held, place, ih, List.count_cons]
    | _ =>
      have free : slot.reg? = none := by simp [Slot.reg?, place]
      simp [free, place, ih]

theorem slotProblem?_eq_none_iff {index : Nat} {slot : Slot} :
    slotProblem? index slot = none ↔ slot.Fits := by
  unfold slotProblem? Slot.Fits
  cases place : slot.place with
  | reg own =>
    simp only [Place.reg.injEq, forall_eq', Register.isAllocable]
    cases machine : own.isMachine <;> cases kept : RegSet.reserved.has own <;> simp
  | _ => simp

theorem slotsProblem?_eq_none_iff {index : Nat} {slots : List Slot} :
    slotsProblem? index slots = none ↔ ∀ slot ∈ slots, slot.Fits := by
  induction slots generalizing index with
  | nil => simp [slotsProblem?]
  | cons slot rest ih =>
    rw [slotsProblem?]
    cases found : slotProblem? index slot with
    | none =>
      have fits := slotProblem?_eq_none_iff.mp found
      simp [ih, fits]
    | some problem =>
      have unfit : ¬ slot.Fits := by
        intro fits
        rw [slotProblem?_eq_none_iff.mpr fits] at found
        cases found
      simp [unfit]

theorem registerProblem?_eq_none_iff {layout : Layout} {reg : Register}
    (machine : reg.isMachine = true) :
    layout.registerProblem? reg = none ↔
      (RegSet.reserved.has reg = true → layout.used.has reg = true) ∧
      (reg.isAllocable = true →
        layout.count reg = layout.registers.count reg ∧
        (layout.used.has reg = true ↔ reg ∈ layout.registers)) := by
  have found : holders layout.slots.toList reg = layout.registers.count reg :=
    holders_eq_count layout.slots.toList reg
  have positive : layout.registers.count reg ≠ 0 ↔ reg ∈ layout.registers := by
    rw [← List.count_pos_iff]
    omega
  simp only [registerProblem?, found, Register.isAllocable, machine, Bool.true_and]
  cases kept : RegSet.reserved.has reg with
  | true => cases layout.used.has reg <;> simp
  | false =>
    by_cases agrees : layout.registers.count reg = layout.count reg
    · rw [← positive, agrees]
      cases layout.used.has reg <;>
        by_cases zero : layout.count reg = 0 <;> simp [zero]
    · have disagrees : ¬ layout.count reg = layout.registers.count reg :=
        fun equality => agrees equality.symm
      simp [agrees, disagrees]

theorem problem?_eq_none_iff {layout : Layout} :
    layout.problem? = none ↔ layout.Sound := by
  unfold problem?
  cases slotsFound : slotsProblem? 0 layout.slots.toList with
  | some problem =>
    have unfit : ¬ layout.Sound := by
      intro sound
      have fits : slotsProblem? 0 layout.slots.toList = none :=
        slotsProblem?_eq_none_iff.mpr fun slot member =>
          sound.fits slot (Array.mem_toList_iff.mp member)
      rw [fits] at slotsFound
      cases slotsFound
    simp [unfit]
  | none =>
    have fits := slotsProblem?_eq_none_iff.mp slotsFound
    rw [List.findSome?_eq_none_iff]
    constructor
    · intro nothing
      have perRegister := fun (reg : Register) (machine : reg.isMachine = true) =>
        (registerProblem?_eq_none_iff machine).mp
          (nothing reg (Register.mem_all.mpr machine))
      refine ⟨fun slot member => fits slot (Array.mem_toList_iff.mpr member), ?_⟩
      constructor
      · intro reg kept
        exact (perRegister reg (RegSet.isMachine_of_has kept)).1 kept
      · intro reg allocable
        exact ((perRegister reg (Register.isMachine_of_isAllocable allocable)).2
          allocable).1
      · intro reg allocable
        exact ((perRegister reg (Register.isMachine_of_isAllocable allocable)).2
          allocable).2
    · intro sound reg member
      have machine := Register.mem_all.mp member
      refine (registerProblem?_eq_none_iff machine).mpr
        ⟨sound.balanced.reserved reg, fun allocable =>
          ⟨sound.balanced.counted reg allocable, sound.balanced.inUse reg allocable⟩⟩

end Layout

end WasmX64

/-!
## Layout operations keep the books

What every operation on a layout does to the registers its slots hold and to the
list of held registers it is balanced against.  Retaining a register adds it to
the list, releasing takes one occurrence off, and replacing a slot exchanges one
register for another.
-/

namespace WasmX64.Layout

variable {layout : Layout} {held : List Register} {reg : Register}

theorem count_setCount (layout : Layout) (reg other : Register) (count : Nat)
    (machine : reg.isMachine = true) :
    (layout.setCount reg count).count other =
      if other = reg then count else layout.count other := by
  have small := Register.code_lt_of_isMachine machine
  unfold Layout.count setCount
  simp only [Vector.toArray_setIfInBounds, Array.getElem?_setIfInBounds,
    Vector.size_toArray]
  by_cases same : other = reg
  · subst same
    simp [small]
  · have different : reg.code.toNat ≠ other.code.toNat := fun equality =>
      same (Register.eq_of_toNat_eq equality.symm)
    simp [same, different]

@[simp] theorem slots_setCount (count : Nat) :
    (layout.setCount reg count).slots = layout.slots := rfl

@[simp] theorem used_setCount (count : Nat) :
    (layout.setCount reg count).used = layout.used := rfl

@[simp] theorem slots_retain : (layout.retain reg).slots = layout.slots := rfl

@[simp] theorem used_retain : (layout.retain reg).used = layout.used.insert reg := rfl

@[simp] theorem base_retain : (layout.retain reg).base = layout.base := rfl

theorem count_retain (machine : reg.isMachine = true) (other : Register) :
    (layout.retain reg).count other =
      if other = reg then layout.count reg + 1 else layout.count other :=
  count_setCount layout reg other _ machine

@[simp] theorem slots_release : (layout.release reg).slots = layout.slots := by
  unfold release
  split
  · rfl
  · dsimp only
    split <;> rfl

@[simp] theorem base_release : (layout.release reg).base = layout.base := by
  unfold release
  split
  · rfl
  · dsimp only
    split <;> rfl

@[simp] theorem slots_forget : (layout.forget reg).slots = layout.slots := rfl

@[simp] theorem base_forget : (layout.forget reg).base = layout.base := rfl

theorem registers_congr {left right : Layout} (same : left.slots = right.slots) :
    left.registers = right.registers := by
  simp [registers, same]

namespace Balanced

/-- Only the bookkeeping fields matter. -/
theorem congr {other : Layout} (balanced : layout.Balanced held)
    (used : other.used = layout.used) (counts : other.counts = layout.counts) :
    other.Balanced held := by
  have count : ∀ reg, other.count reg = layout.count reg := by
    intro reg
    simp [Layout.count, counts]
  refine ⟨?_, ?_, ?_⟩
  · intro reg kept
    rw [used]
    exact balanced.reserved reg kept
  · intro reg allocable
    rw [count]
    exact balanced.counted reg allocable
  · intro reg allocable
    rw [used]
    exact balanced.inUse reg allocable

theorem recount {other : List Register} (balanced : layout.Balanced held)
    (same : ∀ reg, reg.isAllocable = true → other.count reg = held.count reg) :
    layout.Balanced other := by
  refine ⟨balanced.reserved, ?_, ?_⟩
  · intro reg allocable
    rw [balanced.counted reg allocable, same reg allocable]
  · intro reg allocable
    rw [balanced.inUse reg allocable, ← List.count_pos_iff, ← List.count_pos_iff,
      same reg allocable]

theorem perm {other : List Register} (balanced : layout.Balanced held)
    (permuted : held.Perm other) : layout.Balanced other :=
  balanced.recount fun reg _ => (permuted.count_eq reg).symm

theorem retain (balanced : layout.Balanced held) (allocable : reg.isAllocable = true) :
    (layout.retain reg).Balanced (reg :: held) := by
  have machine := Register.isMachine_of_isAllocable allocable
  refine ⟨?_, ?_, ?_⟩
  · intro other kept
    simp [balanced.reserved other kept]
  · intro other otherAllocable
    rw [count_retain machine]
    by_cases same : other = reg
    · subst same
      simp [balanced.counted other otherAllocable]
    · have different : ¬ reg = other := fun equality => same equality.symm
      simp [same, different, balanced.counted other otherAllocable]
  · intro other otherAllocable
    have before := balanced.inUse other otherAllocable
    by_cases same : other = reg
    · subst same
      simp [machine]
    · simp [same, before]

/-- A register that some slot still holds has a positive count. -/
theorem count_pos (balanced : layout.Balanced (reg :: held))
    (allocable : reg.isAllocable = true) :
    layout.count reg = held.count reg + 1 := by
  rw [balanced.counted reg allocable]
  simp

theorem release (balanced : layout.Balanced (reg :: held))
    (allocable : reg.isAllocable = true) : (layout.release reg).Balanced held := by
  have machine := Register.isMachine_of_isAllocable allocable
  have unreserved := Register.not_reserved_of_isAllocable allocable
  have positive := balanced.count_pos allocable
  have countAfter : ∀ other,
      (layout.setCount reg (layout.count reg - 1)).count other =
        if other = reg then held.count reg else layout.count other := by
    intro other
    rw [count_setCount _ _ _ _ machine, positive]
    rfl
  have otherCount : ∀ other, other.isAllocable = true → ¬ other = reg →
      layout.count other = held.count other := by
    intro other otherAllocable different
    have swapped : ¬ reg = other := fun equality => different equality.symm
    rw [balanced.counted other otherAllocable]
    simp [swapped]
  have otherUse : ∀ other, other.isAllocable = true → ¬ other = reg →
      (layout.used.has other = true ↔ other ∈ held) := by
    intro other otherAllocable different
    rw [balanced.inUse other otherAllocable]
    simp [different]
  unfold Layout.release
  rw [if_neg (by omega)]
  simp only [countAfter, if_true]
  by_cases last : held.count reg = 0
  · have gone : reg ∉ held := List.count_eq_zero.mp last
    rw [if_pos last]
    refine ⟨?_, ?_, ?_⟩
    · intro other kept
      have different : other ≠ reg := by
        intro equality
        rw [equality, unreserved] at kept
        cases kept
      simp [balanced.reserved other kept, different]
    · intro other otherAllocable
      change (layout.setCount reg (layout.count reg - 1)).count other = _
      rw [countAfter]
      by_cases same : other = reg
      · simp [same]
      · simp [same, otherCount other otherAllocable same]
    · intro other otherAllocable
      by_cases same : other = reg
      · subst same
        simp [gone]
      · simp [same, otherUse other otherAllocable same]
  · have still : reg ∈ held := List.count_pos_iff.mp (by omega)
    rw [if_neg last]
    refine ⟨balanced.reserved, ?_, ?_⟩
    · intro other otherAllocable
      rw [countAfter]
      by_cases same : other = reg
      · simp [same]
      · simp [same, otherCount other otherAllocable same]
    · intro other otherAllocable
      by_cases same : other = reg
      · subst same
        have used := (balanced.inUse other otherAllocable).mpr (by simp)
        simp [used, still]
      · simp [otherUse other otherAllocable same]

theorem forget (balanced : layout.Balanced held) (allocable : reg.isAllocable = true) :
    (layout.forget reg).Balanced (held.filter (· ≠ reg)) := by
  have machine := Register.isMachine_of_isAllocable allocable
  have unreserved := Register.not_reserved_of_isAllocable allocable
  refine ⟨?_, ?_, ?_⟩
  · intro other kept
    have different : other ≠ reg := by
      intro equality
      rw [equality, unreserved] at kept
      cases kept
    simp [Layout.forget, balanced.reserved other kept, different]
  · intro other otherAllocable
    change (layout.setCount reg 0).count other = _
    rw [count_setCount _ _ _ _ machine]
    by_cases same : other = reg
    · have gone : reg ∉ held.filter (· ≠ reg) := by simp
      rw [if_pos same, same, List.count_eq_zero.mpr gone]
    · rw [if_neg same, balanced.counted other otherAllocable,
        List.count_filter (by simp [same])]
  · intro other otherAllocable
    have before := balanced.inUse other otherAllocable
    by_cases same : other = reg
    · simp [Layout.forget, same]
    · simp [Layout.forget, same, before]

theorem forgetAll (layout : Layout) : layout.forgetAll.Balanced [] := by
  have fresh : ∀ reg, reg.isAllocable = true → RegSet.reserved.has reg = false :=
    fun reg allocable => Register.not_reserved_of_isAllocable allocable
  refine ⟨fun reg kept => kept, ?_, ?_⟩
  · intro reg allocable
    have small := Register.code_lt_of_isMachine
      (Register.isMachine_of_isAllocable allocable)
    simp [Layout.count, Layout.forgetAll, Vector.toArray_replicate, small]
  · intro reg allocable
    simp [Layout.forgetAll, fresh reg allocable]

/-- A register that no slot holds is free. -/
theorem isFree_iff (balanced : layout.Balanced held)
    (allocable : reg.isAllocable = true) : layout.isFree reg = true ↔ reg ∉ held := by
  have machine := Register.isMachine_of_isAllocable allocable
  rw [← balanced.inUse reg allocable]
  simp [isFree, machine]

theorem isAllocable_of_isFree (balanced : layout.Balanced held)
    (free : layout.isFree reg = true) : reg.isAllocable = true := by
  simp only [isFree, Bool.and_eq_true, Bool.not_eq_true'] at free
  have unreserved : RegSet.reserved.has reg = false := by
    cases kept : RegSet.reserved.has reg with
    | false => rfl
    | true =>
      have used := balanced.reserved reg kept
      rw [free.2] at used
      cases used
  simp [Register.isAllocable, free.1, unreserved]

end Balanced

theorem registers_push (layout : Layout) (slot : Slot) :
    (layout.push slot).registers = layout.registers ++ slot.reg?.toList := by
  have slots : (layout.push slot).slots = layout.slots.push slot := by
    unfold push
    cases slot.place <;> rfl
  unfold registers
  rw [slots]
  cases held : slot.reg? <;> simp [held]

theorem registers_pop {slot : Slot} (top : layout.top? = some slot) :
    layout.registers = layout.pop.registers ++ slot.reg?.toList := by
  have split : layout.slots.toList = layout.slots.pop.toList ++ [slot] := by
    have last : layout.slots.toList.getLast? = some slot := by
      simpa [top?] using top
    obtain ⟨front, equality⟩ := List.getLast?_eq_some_iff.mp last
    rw [Array.toList_pop, equality]
    simp
  unfold registers pop
  rw [split]
  cases held : slot.reg? <;> simp [held]

theorem registers_setSlot {index : Nat} {old : Slot} (slot : Slot)
    (found : layout.slots[index]? = some old) :
    ((layout.setSlot index slot).registers ++ old.reg?.toList).Perm
      (layout.registers ++ slot.reg?.toList) := by
  obtain ⟨inside, value⟩ := Array.getElem?_eq_some_iff.mp found
  have before : layout.slots.toList =
      layout.slots.toList.take index ++ old :: layout.slots.toList.drop (index + 1) := by
    have listed : layout.slots.toList[index]? = some old := by simpa using found
    obtain ⟨short, same⟩ := List.getElem?_eq_some_iff.mp listed
    rw [← same, List.getElem_cons_drop short, List.take_append_drop]
  have after : (layout.setSlot index slot).slots.toList =
      layout.slots.toList.take index ++ slot :: layout.slots.toList.drop (index + 1) := by
    rw [setSlot, Array.toList_setIfInBounds, List.set_eq_take_append_cons_drop]
    simp [inside]
  unfold registers
  rw [after]
  conv => rhs; rw [before]
  simp only [List.filterMap_append, List.filterMap_cons]
  rw [List.append_assoc, List.append_assoc]
  apply List.Perm.append_left
  cases oldHeld : old.reg? <;> cases newHeld : slot.reg? <;>
    simp only [Option.toList_none, Option.toList_some, List.append_nil]
  · exact List.Perm.refl _
  · exact (List.perm_append_singleton _ _).symm
  · exact List.perm_append_singleton _ _
  · exact (List.perm_append_singleton _ _).trans
      (List.Perm.cons _ (List.perm_append_singleton _ _).symm)

@[simp] theorem used_setSlot (index : Nat) (slot : Slot) :
    (layout.setSlot index slot).used = layout.used := rfl

@[simp] theorem counts_setSlot (index : Nat) (slot : Slot) :
    (layout.setSlot index slot).counts = layout.counts := rfl

@[simp] theorem base_setSlot (index : Nat) (slot : Slot) :
    (layout.setSlot index slot).base = layout.base := rfl

@[simp] theorem height_setSlot (index : Nat) (slot : Slot) :
    (layout.setSlot index slot).height = layout.height := by
  simp [height, setSlot]

theorem getElem?_setSlot (index other : Nat) (slot : Slot) :
    (layout.setSlot index slot).slots[other]? =
      if index = other ∧ index < layout.height then some slot
      else layout.slots[other]? := by
  simp only [setSlot, Array.getElem?_setIfInBounds, height]
  by_cases same : index = other
  · subst same
    by_cases inside : index < layout.slots.size
    · simp [inside]
    · simp [inside]
  · simp [same]

end WasmX64.Layout
