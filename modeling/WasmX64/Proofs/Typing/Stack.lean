import WasmX64.Proofs.Compile.Logic
import WasmX64.Proofs.Layout.Sound

/-!
# The types on the stack of a compilation

A layout has a type for every slot, the types of locals and operands from the bottom
up.  Handing out registers, spilling and emitting code change neither these types nor
the open blocks; such actions are quiet.
-/

namespace WasmX64

namespace Layout

def types (layout : Layout) : List ValueType := layout.slots.toList.map Slot.type

variable {layout : Layout}

@[simp] theorem length_types : layout.types.length = layout.height := by
  simp [types, height]

theorem getElem?_types (index : Nat) :
    layout.types[index]? = layout.slots[index]?.map Slot.type := by
  simp [types]

theorem types_congr {other : Layout} (same : other.slots = layout.slots) :
    other.types = layout.types := by
  simp [types, same]

@[simp] theorem types_push (slot : Slot) :
    (layout.push slot).types = layout.types ++ [slot.type] := by
  unfold push types
  cases slot.place <;> simp

theorem types_pop_eq_dropLast : layout.pop.types = layout.types.dropLast := by
  simp [types, pop, List.map_dropLast]

theorem types_pop {slot : Slot} (top : layout.top? = some slot) :
    layout.types = layout.pop.types ++ [slot.type] := by
  have last : layout.slots.toList.getLast? = some slot := by simpa [top?] using top
  obtain ⟨front, equality⟩ := List.getLast?_eq_some_iff.mp last
  simp [types, pop, Array.toList_pop, equality]

theorem types_drop : layout.drop.types = layout.types.dropLast := by
  have popped : layout.drop.slots = layout.slots.pop := by
    unfold drop
    split <;> simp [pop]
  simp [types, popped, Array.toList_pop, List.map_dropLast]

theorem height_drop : layout.drop.height = layout.height - 1 := by
  rw [← length_types, types_drop, List.length_dropLast, length_types]

theorem types_dropTo (height fuel : Nat) (enough : layout.height ≤ height + fuel) :
    (dropTo height fuel layout).types = layout.types.take height := by
  induction fuel generalizing layout with
  | zero =>
    rw [dropTo, List.take_of_length_le]
    simpa using enough
  | succ fuel ih =>
    rw [dropTo]
    split
    · rename_i more
      rw [ih (by rw [height_drop]; omega), types_drop, List.dropLast_eq_take,
        List.take_take]
      congr 1
      rw [length_types]
      omega
    · rename_i enough
      rw [List.take_of_length_le]
      simpa using enough

theorem types_truncate (height : Nat) :
    (layout.truncate height).types = layout.types.take height :=
  types_dropTo height layout.height (by omega)

theorem types_setSlot {index : Nat} {slot : Slot}
    (found : layout.types[index]? = some slot.type) :
    (layout.setSlot index slot).types = layout.types := by
  apply List.ext_getElem?
  intro other
  rw [getElem?_types, getElem?_setSlot]
  split
  · rename_i here
    rw [← here.1, found]
    rfl
  · rw [getElem?_types]

theorem types_of_slot {index : Nat} {slot : Slot} (found : layout.slots[index]? = some slot) :
    layout.types[index]? = some slot.type := by
  rw [getElem?_types, found]
  rfl

/-- Every slot is in a place that the compiler recognises. -/
def Known (layout : Layout) : Prop :=
  ∀ slot ∈ layout.slots, ∀ code, slot.place ≠ .unknown code

theorem Known.congr {other : Layout} (known : layout.Known)
    (same : other.slots = layout.slots) : other.Known := by
  intro slot member
  exact known slot (same ▸ member)

theorem Known.push (known : layout.Known) {slot : Slot}
    (place : ∀ code, slot.place ≠ .unknown code) : (layout.push slot).Known := by
  have slots : (layout.push slot).slots = layout.slots.push slot := by
    unfold Layout.push
    cases slot.place <;> rfl
  intro other member
  rw [slots, Array.mem_push] at member
  rcases member with member | rfl
  · exact known other member
  · exact place

theorem Known.pop (known : layout.Known) : layout.pop.Known := by
  intro slot member
  have listed : slot ∈ layout.slots.toList.dropLast := by
    simpa [Layout.pop] using Array.mem_toList_iff.mpr member
  exact known slot (Array.mem_toList_iff.mp (List.dropLast_subset _ listed))

theorem Known.drop (known : layout.Known) : layout.drop.Known := by
  unfold Layout.drop
  split
  · exact known.pop.congr (by simp)
  · exact known.pop

theorem Known.setSlot (known : layout.Known) (index : Nat) {slot : Slot}
    (place : ∀ code, slot.place ≠ .unknown code) : (layout.setSlot index slot).Known := by
  intro other member
  rcases Array.mem_or_eq_of_mem_setIfInBounds member with member | rfl
  · exact known other member
  · exact place

theorem getElem?_of_slot? {index : Int} {slot : Slot} (found : layout.slot? index = some slot) :
    layout.slots[index.toNat]? = some slot := by
  unfold slot? at found
  split at found
  · exact found
  · cases found

theorem slot?_natCast (index : Nat) : layout.slot? index = layout.slots[index]? := by
  simp [slot?]

theorem peek?_natCast (depth : Nat) :
    (layout.peek? depth).map Slot.type = layout.types.reverse[depth]? := by
  unfold peek?
  by_cases inside : depth < layout.height
  · have index : ((layout.height : Int) - 1 - depth).toNat = layout.height - 1 - depth := by
      omega
    rw [if_pos (by omega), index, List.getElem?_reverse (by simpa using inside), getElem?_types,
      length_types]
  · rw [if_neg (by omega), List.getElem?_eq_none]
    · rfl
    · simpa using inside

end Layout

namespace Compilation

/-- The types of locals and operands. -/
def types (state : Compilation) : List ValueType := state.layout.types

@[simp] theorem length_types (state : Compilation) :
    state.types.length = state.layout.height := Layout.length_types

/-- Two states have the same types on the stack and the same open blocks. -/
structure SameShape (before after : Compilation) : Prop where
  types : after.types = before.types
  blocks : after.blocks = before.blocks
  known : before.layout.Known → after.layout.Known

theorem SameShape.refl (state : Compilation) : state.SameShape state := ⟨rfl, rfl, id⟩

theorem SameShape.of_slots {before after : Compilation}
    (slots : after.layout.slots = before.layout.slots)
    (blocks : after.blocks = before.blocks) : before.SameShape after :=
  ⟨Layout.types_congr slots, blocks, fun known => known.congr slots⟩

theorem SameShape.set {before after : Compilation} {index : Nat} (slot : Slot)
    (found : before.types[index]? = some slot.type)
    (place : ∀ code, slot.place ≠ .unknown code)
    (slots : after.layout.slots = (before.layout.setSlot index slot).slots)
    (blocks : after.blocks = before.blocks) : before.SameShape after :=
  ⟨(Layout.types_congr slots).trans (Layout.types_setSlot found), blocks,
    fun known => (known.setSlot index place).congr slots⟩

theorem SameShape.store {before after : Compilation} {index : Nat} {slot : Slot}
    (found : before.layout.slots[index]? = some slot)
    (slots : after.layout.slots = (before.layout.setSlot index (.inFrame slot.type)).slots)
    (blocks : after.blocks = before.blocks) : before.SameShape after := by
  have type := Layout.types_of_slot found
  exact .set (.inFrame slot.type) type (by simp [Slot.inFrame]) slots blocks

theorem SameShape.trans {first second third : Compilation} (before : first.SameShape second)
    (after : second.SameShape third) : first.SameShape third :=
  ⟨after.types.trans before.types, after.blocks.trans before.blocks, after.known ∘ before.known⟩

end Compilation

namespace Compile

variable {α β : Type} {subject : Subject} {state : Compilation}

/-- An action that changes neither the types on the stack nor the open blocks. -/
def Quiet (action : Compile α) : Prop :=
  ∀ subject state, Ensures action subject state fun _ after => state.SameShape after

namespace Quiet

theorem bind {action : Compile α} {next : α → Compile β} (first : Quiet action)
    (second : ∀ value, Quiet (next value)) : Quiet (action >>= next) := by
  intro subject state
  refine (first subject state).andThen fun value middle same => ?_
  exact (second value subject middle).mono fun _ _ after => same.trans after

theorem map {action : Compile α} {change : α → β} (quiet : Quiet action) :
    Quiet (change <$> action) := by
  intro subject state
  rw [ensures_map]
  exact quiet subject state

theorem pure {value : α} : Quiet (pure value) := by
  intro subject state
  simpa using Compilation.SameShape.refl state

theorem get : Quiet get := by
  intro subject state
  simpa using Compilation.SameShape.refl state

theorem read : Quiet read := by
  intro subject state
  simpa using Compilation.SameShape.refl state

theorem throw {fault : Fault} : Quiet (throw fault : Compile α) := by
  intro subject state
  simp

theorem ite {condition : Prop} [Decidable condition] {yes no : Compile α}
    (first : Quiet yes) (second : Quiet no) : Quiet (if condition then yes else no) := by
  split
  · exact first
  · exact second

theorem modify {change : Compilation → Compilation}
    (keeps : ∀ state : Compilation, state.SameShape (change state)) :
    Quiet (modify change) := by
  intro subject state
  simpa using keeps state

theorem modifyLayout {change : Layout → Layout}
    (keeps : ∀ layout, (change layout).slots = layout.slots) :
    Quiet (modifyLayout change) :=
  modify fun state => .of_slots (keeps state.layout) rfl

theorem emit (steps : List Step) : Quiet (emit steps) :=
  modify fun _ => .of_slots rfl rfl

theorem modifyGet {change : Compilation → α × Compilation}
    (keeps : ∀ state : Compilation, state.SameShape (change state).2) :
    Quiet (modifyGet change) := by
  intro subject state
  exact ensures_modifyGet.mpr (keeps state)

theorem newLabel : Quiet newLabel := modifyGet fun _ => .of_slots rfl rfl

theorem mapM {γ : Type} {change : α → Compile γ} (quiet : ∀ value, Quiet (change value))
    (list : List α) : Quiet (list.mapM change) := by
  induction list with
  | nil => exact pure
  | cons value rest ih =>
    rw [List.mapM_cons]
    exact (quiet value).bind fun _ => ih.bind fun _ => pure

theorem loadRef (target : Register) (kind : RefKind) (index : UInt32) :
    Quiet (loadRef target kind index) :=
  modify fun _ => .of_slots rfl rfl

theorem addTrap (kind : TrapKind) : Quiet (addTrap kind) := by
  refine newLabel.bind fun _ => Quiet.bind ?_ fun _ => pure
  exact modify fun _ => .of_slots rfl rfl

theorem record (what : Happening) : Quiet (record what) :=
  read.bind fun _ => modify fun _ => .of_slots rfl rfl

theorem machine {event : MachineEvent} {action : Compile Unit} (quiet : Quiet action) :
    Quiet (machine event action) :=
  (record _).bind fun _ => quiet.bind fun _ => record _

theorem release (reg : Register) : Quiet (Compile.modifyLayout (·.release reg)) :=
  modifyLayout fun _ => by simp

/-- A transfer only adds code. -/
theorem transfer (source : Layout) (action : TransferM Unit) :
    Quiet (transfer source action) := by
  refine get.bind fun state => ?_
  split
  · exact modify fun _ => .of_slots rfl rfl
  · refine Quiet.bind ?_ fun _ => throw
    exact modify fun _ => .of_slots rfl rfl

theorem mergeAll (join source : Layout) : Quiet (mergeAll join source) :=
  ite (throw.bind fun _ => transfer _ _) (transfer _ _)

theorem mergeBranch (join source : Layout) (arity : Int) :
    Quiet (mergeBranch join source arity) :=
  ite (throw.bind fun _ => transfer _ _) (transfer _ _)

end Quiet

end Compile

end WasmX64
